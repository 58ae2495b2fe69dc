import Sandboxie.ImBox.CryptoHeader

/-!
# Changes of the header of an encrypted image

`CCryptoIO` of `ImBox/CryptoIO.cpp`: `ChangePassword` and `SetData` read the header, decrypt
it, change it and write it back.  What the disk does is up to `Env`: a read that fails leaves
anything in the buffer, and a write that fails leaves anything on the disk.
-/

namespace Sandboxie.CryptoIO

open Bytes

def ERR_OK : Nat := 0
def ERR_WRONG_PASSWORD : Nat := 4
def ERR_MALLOC_ERROR : Nat := 13
def ERR_DATA_TO_LONG : Nat := 15
def ERR_DATA_NOT_FOUND : Nat := 16

/-- What an access to the disk does: all, or it fails and leaves something. -/
inductive Access
  | done
  | failed (left : Header)

namespace Access

def result (a : Access) (wanted : Header) : Header :=
  match a with
  | done => wanted
  | failed left => left

end Access

structure Env where
  /-- the result of `m_pIO->Init` -/
  init : Nat
  /-- there is memory for the header -/
  header : Bool
  read : Access
  /-- there is memory for the keys of the header -/
  keys : Bool
  /-- from `make_rand` -/
  salt : Salt
  write : Access

/-- The first 2 KB of the image, and `m->password`, which there may be no memory for. -/
structure Image where
  disk : Header
  password : Option (List WChar)

inductive HeaderCall
  | changePassword (newKey : List WChar)
  | setData (data : List UInt8)

/-- `dc_pass::size` for a text of some length, which an `int` holds. -/
def passSize (length : Nat) : Nat :=
  let size := length * 2 % 2 ^ 32
  if 128 * 2 < size then 128 * 2 else size

/-- What `dc_pass` keeps of a text. -/
def dcPass (key : List WChar) : List WChar := key.take (passSize key.length / 2)

variable (crypto : Crypto)

/-- `CCryptoIO::WriteHeader`, which crashes without a password or a cipher -/
def writeHeader (env : Env) (header : Header) (s : Image) : Option (Nat × Image) :=
  if env.keys then
    match s.password with
    | some password =>
      if header.alg_1 < CF_CIPHERS_NUM then
        some (ERR_OK, { s with
          disk := env.write.result (written crypto password env.salt header) })
      else none
    | none => none
  else some (ERR_MALLOC_ERROR, s)

/-- How a call begins: with the header, unless it fails or crashes. -/
def openHeader (env : Env) (s : Image) : Option (Except Nat Header) :=
  if env.init ≠ ERR_OK then some (.error env.init)
  else if env.header = false then some (.error ERR_MALLOC_ERROR)
  else
    match s.password with
    | none => none
    | some password =>
      match dc_decrypt_header crypto (env.read.result s.disk) password with
      | none => some (.error ERR_WRONG_PASSWORD)
      | some header => some (.ok header)

def Header.setData (header : Header) (data : List UInt8) (h : data.length ≤ 1024) : Header :=
  (((header.put 1016 (ofU32 DC_INFO_MAGIC) (by decide)).put 1020 (ofU16 0) (by decide)).put 1022
    (ofU16 data.length) (by rw [length_ofU16]; decide)).put 1024 data
      (Nat.le_trans (Nat.add_le_add_left h 1024) (by decide))

/-- `CCryptoIO::ChangePassword` and `CCryptoIO::SetData` -/
def step (s : Image) (call : HeaderCall) (env : Env) : Option (Nat × Image) :=
  match openHeader crypto env s with
  | none => none
  | some (.error e) => some (e, s)
  | some (.ok header) =>
    match call with
    | .changePassword newKey =>
      writeHeader crypto env header { s with password := some (dcPass newKey) }
    | .setData data =>
      if h : data.length ≤ 1024 then writeHeader crypto env (header.setData data h) s
      else some (ERR_DATA_TO_LONG, s)

/-- `CCryptoIO::GetData`, where the buffer of the header ends with its page. -/
def getData (s : Image) (env : Env) : Option (Nat × List UInt8) :=
  match openHeader crypto env s with
  | none => none
  | some (.error e) => some (e, [])
  | some (.ok header) =>
    if header.info_magic ≠ DC_INFO_MAGIC then some (ERR_DATA_NOT_FOUND, [])
    else if 1024 + header.info_size ≤ 4096 then
      some (ERR_OK, (header.info_data ++ List.replicate 2048 0).take header.info_size)
    else none

/-! ### The law -/

def HeaderCall.password (call : HeaderCall) (s : Image) : Option (List WChar) :=
  match call with
  | changePassword newKey => some (dcPass newKey)
  | setData _ => s.password

def Image.header (disk : Header) (password : Option (List WChar)) : Option Header :=
  password.bind (dc_decrypt_header crypto disk)

def SameVolume (h h' : Header) : Prop :=
  h'.key_1 = h.key_1 ∧ h'.alg_1 = h.alg_1 ∧ h'.flags = h.flags

def Env.Good (env : Env) : Prop :=
  env.init = ERR_OK ∧ env.header = true ∧ env.read = .done

/-- What a call that returned must have done. -/
def AllOrNothing (s : Image) (call : HeaderCall) (ret : Nat) (s' : Image) : Prop :=
  if ret = ERR_OK then
    (∃ old new, Image.header crypto s.disk s.password = some old ∧
      Image.header crypto s'.disk (call.password s) = some new ∧ SameVolume old new) ∧
    ∀ data, call = .setData data → ∀ env : Env, env.Good →
      getData crypto s' env = some (ERR_OK, data)
  else s'.disk = s.disk

def HeaderCall.header (call : HeaderCall) (header : Header) : Option Header :=
  match call with
  | changePassword _ => some header
  | setData data => if h : data.length ≤ 1024 then some (header.setData data h) else none

/-- A call that finds a header and writes it back reads and writes without a failure, and no
cipher that is tried before its own takes what it writes for a header. -/
def Meets (s : Image) (call : HeaderCall) (env : Env) : Prop :=
  env.keys = true → ∀ header header' password, openHeader crypto env s = some (.ok header) →
    call.header header = some header' → call.password s = some password →
      env.read = .done ∧ env.write = .done ∧ Clear crypto password env.salt header'

def RunLaw (s : Image) : List (HeaderCall × Env) → Prop
  | [] => True
  | (call, env) :: rest => ∀ ret s', step crypto s call env = some (ret, s') →
      AllOrNothing crypto s call ret s' ∧ RunLaw s' rest

def RunMeets (s : Image) : List (HeaderCall × Env) → Prop
  | [] => True
  | (call, env) :: rest => Meets crypto s call env ∧
      ∀ ret s', step crypto s call env = some (ret, s') → RunMeets s' rest

/-! ### The data of an image -/

theorem setData_fields (header : Header) {data : List UInt8} (h : data.length ≤ 1024) :
    (header.setData data h).sign = header.sign ∧ SameVolume header (header.setData data h) ∧
      (header.setData data h).info_magic = DC_INFO_MAGIC ∧
      (header.setData data h).info_size = data.length ∧
      (header.setData data h).info_data.take data.length = data := by
  have h₁ : (1016 : Nat) + (ofU32 DC_INFO_MAGIC).length ≤ DC_AREA_SIZE := by decide
  have h₂ : (1020 : Nat) + (ofU16 0).length ≤ DC_AREA_SIZE := by decide
  have h₃ : 1022 + (ofU16 data.length).length ≤ DC_AREA_SIZE := by
    rw [length_ofU16]
    decide
  have h₄ : 1024 + data.length ≤ DC_AREA_SIZE :=
    Nat.le_trans (Nat.add_le_add_left h 1024) (by decide)
  obtain ⟨s₁, f₁, a₁, k₁⟩ := header.put_fields h₁ (Nat.le_refl _)
  obtain ⟨s₂, f₂, a₂, k₂⟩ := (header.put _ _ h₁).put_fields h₂ (by decide)
  obtain ⟨s₃, f₃, a₃, k₃⟩ := ((header.put _ _ h₁).put _ _ h₂).put_fields h₃ (by decide)
  obtain ⟨s₄, f₄, a₄, k₄⟩ := (((header.put _ _ h₁).put _ _ h₂).put _ _ h₃).put_fields h₄ (by decide)
  have hlen : ∀ h : Header, h.val.length = 2048 := fun h => h.property
  refine ⟨s₄.trans (s₃.trans (s₂.trans s₁)), ⟨k₄.trans (k₃.trans (k₂.trans k₁)),
    a₄.trans (a₃.trans (a₂.trans a₁)), f₄.trans (f₃.trans (f₂.trans f₁))⟩, ?_, ?_, ?_⟩
  · calc (header.setData data h).info_magic
        = (((header.put _ _ h₁).put _ _ h₂).put _ _ h₃).info_magic :=
          u32_splice_of_disjoint (by rw [hlen]; exact h₄) (.inl (by decide))
      _ = ((header.put _ _ h₁).put _ _ h₂).info_magic :=
          u32_splice_of_disjoint (by rw [hlen]; exact h₃) (.inl (by decide))
      _ = (header.put _ _ h₁).info_magic :=
          u32_splice_of_disjoint (by rw [hlen]; exact h₂) (.inl (by decide))
      _ = u32 (ofU32 DC_INFO_MAGIC) 0 :=
          u32_splice_of_mem (o := 0) (by rw [hlen]; decide) (by decide)
      _ = DC_INFO_MAGIC := u32_ofU32 (by decide)
  · calc (header.setData data h).info_size
        = (((header.put _ _ h₁).put _ _ h₂).put _ _ h₃).info_size :=
          u16_splice_of_disjoint (by rw [hlen]; exact h₄) (.inl (by decide))
      _ = u16 (ofU16 data.length) 0 := u16_splice (by rw [hlen]; decide) (length_ofU16 _)
      _ = data.length := u16_ofU16 (Nat.lt_of_le_of_lt h (by decide))
  · exact part_splice (by rw [hlen]; decide)

/-! ### Calls -/

variable {crypto} {s s' : Image} {call : HeaderCall} {env : Env} {ret : Nat}

theorem error_ne_ok {e : Nat} (h : openHeader crypto env s = some (.error e)) : e ≠ ERR_OK := by
  unfold openHeader at h
  split_ifs at h with hinit hheader
  · obtain rfl : env.init = e := by injection Option.some.inj h
    exact hinit
  · obtain rfl : ERR_MALLOC_ERROR = e := by injection Option.some.inj h
    decide
  cases hpassword : s.password with
  | none =>
    rw [hpassword] at h
    exact nomatch h
  | some password =>
    rw [hpassword] at h
    simp only at h
    cases hdecrypt : dc_decrypt_header crypto (env.read.result s.disk) password with
    | none =>
      rw [hdecrypt] at h
      obtain rfl : ERR_WRONG_PASSWORD = e := by injection Option.some.inj h
      decide
    | some header =>
      rw [hdecrypt] at h
      exact nomatch h

variable {header : Header}

theorem header_of_open (h : openHeader crypto env s = some (.ok header)) :
    Image.header crypto (env.read.result s.disk) s.password = some header := by
  unfold openHeader at h
  split_ifs at h with hinit hheader
  · exact nomatch h
  · exact nomatch h
  cases hpassword : s.password with
  | none =>
    rw [hpassword] at h
    exact nomatch h
  | some password =>
    rw [hpassword] at h
    simp only at h
    cases hdecrypt : dc_decrypt_header crypto (env.read.result s.disk) password with
    | none =>
      rw [hdecrypt] at h
      exact nomatch h
    | some header' =>
      rw [hdecrypt] at h
      obtain rfl : header' = header := by injection Option.some.inj h
      exact hdecrypt

theorem open_of_header (hgood : env.Good)
    (h : Image.header crypto s.disk s.password = some header) :
    openHeader crypto env s = some (.ok header) := by
  obtain ⟨password, hpassword, hdecrypt⟩ := Option.bind_eq_some_iff.mp h
  unfold openHeader
  rw [if_neg (not_not.mpr hgood.1), if_neg (by rw [hgood.2.1]; decide), hpassword, hgood.2.2]
  show (match dc_decrypt_header crypto s.disk password with
    | none => some (Except.error ERR_WRONG_PASSWORD)
    | some header => some (.ok header)) = _
  rw [hdecrypt]

theorem sign_of_header {disk : Header} {password : Option (List WChar)}
    (h : Image.header crypto disk password = some header) : header.sign = DC_VOLUME_SIGN := by
  obtain ⟨p, -, hdecrypt⟩ := Option.bind_eq_some_iff.mp h
  exact sign_of_decrypt hdecrypt

theorem writeHeader_spec (h : writeHeader crypto env header s = some (ret, s')) :
    (ret = ERR_MALLOC_ERROR ∧ s' = s) ∨
    (ret = ERR_OK ∧ env.keys = true ∧ header.alg_1 < CF_CIPHERS_NUM ∧ ∃ password,
      s.password = some password ∧ s' = { s with
        disk := env.write.result (written crypto password env.salt header) }) := by
  unfold writeHeader at h
  by_cases hkeys : env.keys = true
  · rw [if_pos hkeys] at h
    cases hpassword : s.password with
    | none =>
      rw [hpassword] at h
      exact nomatch h
    | some password =>
      rw [hpassword] at h
      simp only at h
      by_cases halg : header.alg_1 < CF_CIPHERS_NUM
      · rw [if_pos halg] at h
        cases h
        exact .inr ⟨rfl, hkeys, halg, password, rfl, rfl⟩
      · rw [if_neg halg] at h
        exact nomatch h
  · rw [if_neg hkeys] at h
    cases h
    exact .inl ⟨rfl, rfl⟩

theorem step_cases (h : step crypto s call env = some (ret, s')) :
    (ret ≠ ERR_OK ∧ s'.disk = s.disk) ∨
    (ret = ERR_OK ∧ env.keys = true ∧ ∃ header header' password,
      openHeader crypto env s = some (.ok header) ∧ call.header header = some header' ∧
      call.password s = some password ∧ header'.alg_1 < CF_CIPHERS_NUM ∧
      s' = { disk := env.write.result (written crypto password env.salt header')
             password := some password }) := by
  unfold step at h
  cases hopen : openHeader crypto env s with
  | none =>
    rw [hopen] at h
    exact nomatch h
  | some result =>
    rw [hopen] at h
    cases result with
    | error e =>
      cases h
      exact .inl ⟨error_ne_ok hopen, rfl⟩
    | ok header =>
      cases call with
      | changePassword newKey =>
        rcases writeHeader_spec h with ⟨rfl, rfl⟩ | ⟨rfl, hkeys, halg, password, hpassword, rfl⟩
        · exact .inl ⟨by decide, rfl⟩
        · refine .inr ⟨rfl, hkeys, header, header, password, rfl, rfl, hpassword, halg, ?_⟩
          rw [← hpassword]
      | setData data =>
        simp only at h
        split_ifs at h with hlen
        · rcases writeHeader_spec h with ⟨rfl, rfl⟩ | ⟨rfl, hkeys, halg, password, hpassword, rfl⟩
          · exact .inl ⟨by decide, rfl⟩
          · refine .inr ⟨rfl, hkeys, header, header.setData data hlen, password, rfl,
              dif_pos hlen, hpassword, halg, ?_⟩
            rw [← hpassword]
        · cases h
          exact .inl ⟨by decide, rfl⟩

theorem callHeader_fields {header' : Header} (h : call.header header = some header') :
    header'.sign = header.sign ∧ SameVolume header header' := by
  cases call with
  | changePassword newKey =>
    cases h
    exact ⟨rfl, rfl, rfl, rfl⟩
  | setData data =>
    unfold HeaderCall.header at h
    simp only at h
    split_ifs at h with hlen
    cases h
    have hfields := setData_fields header hlen
    exact ⟨hfields.1, hfields.2.1⟩

theorem getData_of_agree {new : Header} {data : List UInt8} (hlen : data.length ≤ 1024)
    (hnew : Image.header crypto s.disk s.password = some new)
    (hagree : new.Agree (header.setData data hlen)) (hgood : env.Good) :
    getData crypto s env = some (ERR_OK, data) := by
  obtain ⟨-, -, hmagic, hsize, hdata⟩ := setData_fields header hlen
  rw [← hagree.info_magic] at hmagic
  rw [← hagree.info_size] at hsize
  rw [← hagree.info_data] at hdata
  unfold getData
  rw [open_of_header hgood hnew]
  simp only
  rw [if_neg (not_not.mpr hmagic), hsize, if_pos (by omega)]
  have hpage : new.info_data.length = 1024 := by
    show (new.val.drop 1024).length = 1024
    rw [List.length_drop, new.property]
    rfl
  rw [List.take_append_of_le_length (by omega), hdata]

theorem allOrNothing_step (hmeets : Meets crypto s call env)
    (h : step crypto s call env = some (ret, s')) : AllOrNothing crypto s call ret s' := by
  unfold AllOrNothing
  rcases step_cases h with ⟨hret, hdisk⟩ |
    ⟨rfl, hkeys, header, header', password, hopen, hheader, hpassword, halg, rfl⟩
  · rw [if_neg hret]
    exact hdisk
  obtain ⟨hread, hwrite, hclear⟩ := hmeets hkeys header header' password hopen hheader hpassword
  have hold := header_of_open hopen
  rw [hread] at hold
  have hold : Image.header crypto s.disk s.password = some header := hold
  obtain ⟨hsign, hsame⟩ := callHeader_fields hheader
  obtain ⟨new, hnew, hagree⟩ := decrypt_written (hsign.trans (sign_of_header hold)) halg hclear
  rw [if_pos rfl, hwrite, hpassword]
  refine ⟨⟨header, new, hold, hnew, ?_⟩, ?_⟩
  · exact ⟨hagree.key_1.trans hsame.1, hagree.alg_1.trans hsame.2.1,
      hagree.flags.trans hsame.2.2⟩
  · rintro data rfl env' hgood
    unfold HeaderCall.header at hheader
    simp only at hheader
    split_ifs at hheader with hlen
    cases hheader
    exact getData_of_agree hlen (s := { disk := _, password := some password }) hnew hagree hgood

/-- **The header is changed as a whole or not at all**, by each call of a run whose calls meet
the condition. -/
theorem header_all_or_nothing (crypto : Crypto) (events : List (HeaderCall × Env)) :
    ∀ s : Image, RunMeets crypto s events → RunLaw crypto s events := by
  induction events with
  | nil => exact fun _ _ => trivial
  | cons event rest ih =>
    rintro s ⟨hmeets, hrest⟩ ret s' hstep
    exact ⟨allOrNothing_step hmeets hstep, ih s' (hrest ret s' hstep)⟩

/-! ### Runs on a new image -/

def newHeader : Header :=
  Header.put ⟨List.replicate DC_AREA_SIZE 0, List.length_replicate⟩ 64 (ofU32 DC_VOLUME_SIGN)
    (by decide)

theorem newHeader_fields :
    newHeader.sign = DC_VOLUME_SIGN ∧ newHeader.alg_1 = 0 ∧ newHeader.info_magic = 0 := by
  have hlen : 64 + (ofU32 DC_VOLUME_SIGN).length ≤
    (List.replicate DC_AREA_SIZE (0 : UInt8)).length := by
    rw [List.length_replicate]
    decide
  have hzero : ∀ o, u32 (List.replicate DC_AREA_SIZE 0) o = 0 := by
    intro o
    simp only [u32, byteAt_replicate]
    rfl
  refine ⟨?_, ?_, ?_⟩
  · have hmem : newHeader.sign = u32 (ofU32 DC_VOLUME_SIGN) 0 :=
      u32_splice_of_mem (o := 0) (Nat.le_of_add_right_le hlen) (by decide)
    exact hmem.trans (u32_ofU32 (by decide))
  · exact (u32_splice_of_disjoint hlen (.inr (by decide))).trans (hzero 82)
  · exact (u32_splice_of_disjoint hlen (.inr (by decide))).trans (hzero 1016)

def zeroSalt : Salt := ⟨List.replicate PKCS5_SALT_SIZE 0, List.length_replicate⟩

def envWriting (write : Access) : Env :=
  { init := ERR_OK, header := true, read := .done, keys := true, salt := zeroSalt, write := write }

/-- An image with the password `x`. -/
def newImage (crypto : Crypto) : Image :=
  { disk := written crypto [120] zeroSalt newHeader, password := some [120] }

theorem newImage_opens (crypto : Crypto) : ∃ header,
    Image.header crypto (newImage crypto).disk (newImage crypto).password = some header ∧
      header.Agree newHeader := by
  refine decrypt_written newHeader_fields.1 ?_ ?_
  · rw [newHeader_fields.2.1]
    decide
  · intro i hi
    exact absurd hi (Nat.not_lt_zero i)

def plain : Crypto where
  xts :=
    { encrypt := fun _ _ h => h
      decrypt := fun _ _ h => h
      decrypt_encrypt := fun _ _ _ _ => rfl
      decrypt_drop := fun _ _ _ _ _ _ h => h }
  pkcs5 := fun _ _ => []

theorem meets_first (halg : ∀ header, Image.header crypto s.disk s.password = some header →
    header.alg_1 = 0) : Meets crypto s call (envWriting .done) := by
  intro _ header header' password hopen hheader _
  have hread : (envWriting .done).read = .done := rfl
  have hold := header_of_open hopen
  have hzero : header'.alg_1 = 0 := (callHeader_fields hheader).2.2.1.trans (halg header hold)
  refine ⟨rfl, rfl, fun i hi => ?_⟩
  rw [hzero] at hi
  exact absurd hi (Nat.not_lt_zero i)

theorem newImage_alg (crypto : Crypto)
    (h : Image.header crypto (newImage crypto).disk (newImage crypto).password = some header) :
    header.alg_1 = 0 := by
  obtain ⟨header', hheader', hagree⟩ := newImage_opens crypto
  obtain rfl := Option.some.inj (h.symm.trans hheader')
  exact hagree.alg_1.trans newHeader_fields.2.1

theorem step_newImage (crypto : Crypto) (data : List UInt8) (hlen : data.length ≤ 1024)
    (write : Access) : ∃ header', step crypto (newImage crypto) (.setData data)
      (envWriting write) = some (ERR_OK,
        { newImage crypto with disk := write.result header' }) := by
  obtain ⟨header, hheader, hagree⟩ := newImage_opens crypto
  have hopen : openHeader crypto (envWriting write) (newImage crypto) = some (.ok header) :=
    open_of_header ⟨rfl, rfl, rfl⟩ hheader
  refine ⟨written crypto [120] zeroSalt (header.setData data hlen), ?_⟩
  have halg : (header.setData data hlen).alg_1 < CF_CIPHERS_NUM := by
    rw [(setData_fields header hlen).2.1.2.1, hagree.alg_1, newHeader_fields.2.1]
    decide
  unfold step
  rw [hopen]
  simp only
  rw [dif_pos hlen]
  unfold writeHeader
  rw [if_pos (show (envWriting write).keys = true from rfl)]
  show (if (header.setData data hlen).alg_1 < CF_CIPHERS_NUM then _ else none) = _
  rw [if_pos halg]
  rfl

theorem header_all_or_nothing_new :
    (∃ s', step plain (newImage plain) (.setData [1, 2, 3]) (envWriting .done) =
      some (ERR_OK, s')) ∧
    RunLaw plain (newImage plain) [(.setData [1, 2, 3], envWriting .done)] := by
  refine ⟨?_, header_all_or_nothing plain [(.setData [1, 2, 3], envWriting .done)]
    (newImage plain) ⟨meets_first fun header => newImage_alg plain, fun _ _ _ => trivial⟩⟩
  obtain ⟨header', hstep⟩ := step_newImage plain [1, 2, 3] (by decide) .done
  exact ⟨_, hstep⟩

/-- Whatever the ciphers are, data are lost when the disk does not write them. -/
theorem unwritten_data_lost :
    ¬ ∃ crypto : Crypto, ∀ (s : Image) (events : List (HeaderCall × Env)),
      RunLaw crypto s events := by
  rintro ⟨crypto, hlaw⟩
  obtain ⟨header', hstep⟩ := step_newImage crypto [1] (by decide)
    (.failed (newImage crypto).disk)
  have hall := (hlaw (newImage crypto) [(.setData [1], envWriting (.failed (newImage crypto).disk))]
    _ _ hstep).1
  unfold AllOrNothing at hall
  have hdata := hall.2 [1] rfl (envWriting .done) ⟨rfl, rfl, rfl⟩
  obtain ⟨header, hheader, hagree⟩ := newImage_opens crypto
  have hnone : getData crypto (newImage crypto) (envWriting .done) =
      some (ERR_DATA_NOT_FOUND, []) := by
    unfold getData
    rw [open_of_header ⟨rfl, rfl, rfl⟩ hheader]
    simp only
    rw [if_pos]
    rw [hagree.info_magic, newHeader_fields.2.2]
    decide
  have hbad := hnone.symm.trans hdata
  exact absurd (Prod.mk.inj (Option.some.inj hbad)).1 (by decide)

end Sandboxie.CryptoIO
