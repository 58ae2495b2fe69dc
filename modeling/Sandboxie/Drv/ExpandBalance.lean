import Sandboxie.Drv.ConfExpand

/-!
# What the expansion gives back

Whatever finds the value of a variable holds no block afterwards, and `Conf_Expand_Helper` holds
the new string only.  From there the loop of `Conf_Expand_2` is followed with the blocks that it
holds at the start of each turn.
-/

namespace Sandboxie.ConfExpand

open Text Blocks Conf List

variable {env : Env} {args : Args}

/-! ### The values of variables -/

theorem confText_quiet (sectionName settingName : List WChar) :
    Quiet (confText env sectionName settingName) := .ask _

theorem expandOverride_quiet (pre valueName : List WChar) :
    Quiet (expandOverride env args pre valueName) :=
  .buffer (fun _ => confText_quiet _ _) (.pure _) fun _ => .pure _

theorem queryValue_quiet (rootKey : RootKey) (keyPath valueName : List WChar) :
    Quiet (queryValue env args rootKey keyPath valueName) := by
  refine .bind (.ask _) fun answer => .ite ?_ (.pure _)
  exact .bind (expandOverride_quiet _ _) fun _ => .pure _

theorem queryWithPath_quiet (size : Nat) (keyPath valueName : List WChar) :
    Quiet (queryWithPath env args size keyPath valueName) :=
  .buffer (fun _ => queryValue_quiet _ _ _) (.pure _) fun _ => .pure _

theorem expandRegValue_quiet (rootKey : RootKey) (subKeyPath valueName : List WChar) :
    Quiet (expandRegValue env args rootKey subKeyPath valueName) := by
  cases rootKey with
  | user => exact queryWithPath_quiet _ _ _
  | machine => exact queryWithPath_quiet _ _ _
  | absolute => exact queryValue_quiet _ _ _
  | control => exact queryValue_quiet _ _ _
  | windowsNT => exact queryValue_quiet _ _ _

theorem userNameLoop_quiet (sid : List WChar) (turns : Nat) (messageSent : Bool) :
    Quiet (userNameLoop env sid turns messageSent) := by
  induction turns generalizing messageSent with
  | zero => exact .pure _
  | succ turns ih =>
    refine .bind (.ask _) fun unloading => .ite (.pure _) (.bind (.ask _) fun user => ?_)
    cases user with
    | some u => exact .pure _
    | none =>
      refine .ite (ih true) (.buffer (fun _ => .ask _) (.pure _) fun sent => ?_)
      exact .ite (ih true) (.pure _)

theorem expandUserName_quiet : Quiet (expandUserName env args) := userNameLoop_quiet _ _ _

theorem templateValue_quiet (settingName : List WChar) :
    Quiet (templateValue env settingName) :=
  .bind (confText_quiet _ _) fun _ => .pure _

theorem templateQuery_quiet (varname user : List WChar) :
    Quiet (templateQuery env varname user) := by
  refine .bind (templateValue_quiet _) fun value => ?_
  cases value with
  | some value => exact .pure _
  | none => exact templateValue_quiet _

variable (varname : List WChar)

theorem expandTemplate_quiet : Quiet (expandTemplate env args varname) := by
  refine .bind expandUserName_quiet fun user => ?_
  exact .buffer (fun _ => templateQuery_quiet _ _) (.pure _) fun _ => .pure _

theorem userProfile_quiet : Quiet (userProfile env args) :=
  .buffer (fun _ => expandRegValue_quiet _ _ _) (.pure _) fun _ => .pure _

theorem allUsersProfile_quiet : Quiet (allUsersProfile env args) := by
  refine .bind (expandRegValue_quiet _ _ _) fun r => .ite ?_ (.pure _)
  refine .bind (expandRegValue_quiet _ _ _) fun r => .ite ?_ (.pure _)
  exact .bind (expandRegValue_quiet _ _ _) fun _ => .pure _

theorem orElseQuery_quiet {r : Nat × List WChar} {next : Prog (Nat × List WChar)}
    (hnext : Quiet next) : Quiet (orElseQuery r next) := .ite hnext (.pure _)

theorem tempDirectory_quiet : Quiet (tempDirectory env args) :=
  .bind (expandRegValue_quiet _ _ _) fun _ => orElseQuery_quiet (expandRegValue_quiet _ _ _)

theorem shellFolder_quiet : Quiet (shellFolder env args varname) := by
  refine .bind (expandRegValue_quiet _ _ _) fun _ => ?_
  refine .bind (orElseQuery_quiet (expandRegValue_quiet _ _ _)) fun _ => ?_
  refine .bind (orElseQuery_quiet (expandRegValue_quiet _ _ _)) fun _ => ?_
  exact orElseQuery_quiet (expandRegValue_quiet _ _ _)

theorem queried_quiet {asked : Bool} {p : Prog (Nat × List WChar)} (hp : Quiet p) :
    Quiet (queried asked p) := .bind hp fun _ => .pure _

theorem regValue_quiet (asked : Bool) (rootKey : RootKey) (subKeyPath valueName : List WChar) :
    Quiet (queried asked (expandRegValue env args rootKey subKeyPath valueName)) :=
  queried_quiet (expandRegValue_quiet _ _ _)

theorem known_quiet (value : List WChar) : Quiet (known value) := .pure _

theorem lookupVariable_quiet :
    Quiet (lookupVariable env args varname) := by
  refine .ite (known_quiet _) <| .ite (known_quiet _) <| .ite (known_quiet _) ?_
  refine .ite (.bind expandUserName_quiet fun _ => known_quiet _) <| .ite (known_quiet _) ?_
  refine .ite (regValue_quiet _ _ _ _) <| .ite (regValue_quiet _ _ _ _) ?_
  refine .ite (regValue_quiet _ _ _ _) <| .ite (regValue_quiet _ _ _ _) ?_
  refine .ite (regValue_quiet _ _ _ _) ?_
  refine .ite (queried_quiet (.bind (expandRegValue_quiet _ _ _) fun _ => .pure _)) ?_
  refine .ite (queried_quiet (.bind (expandRegValue_quiet _ _ _) fun _ => .pure _)) ?_
  refine .ite (known_quiet _) <| .ite (queried_quiet userProfile_quiet) ?_
  refine .ite (queried_quiet allUsersProfile_quiet) <| .ite (known_quiet _) ?_
  refine .ite (regValue_quiet _ _ _ _) <| .ite (queried_quiet tempDirectory_quiet) ?_
  refine .ite (regValue_quiet _ _ _ _) <| .ite (queried_quiet (expandTemplate_quiet _)) ?_
  exact queried_quiet (shellFolder_quiet _)

theorem variableValue_quiet : Quiet (variableValue env args varname) := by
  refine .bind (expandOverride_quiet _ _) fun value => ?_
  cases value with
  | some value => exact known_quiet _
  | none => exact lookupVariable_quiet _

/-! ### Paths -/

/-- The blocks of a path that its receiver gives back. -/
def OutPath.blocks : Option OutPath → List (Nat × Nat)
  | none => []
  | some out => [(out.block, out.size)]

/-- The status is a success exactly where a path is handed out, and its block is all there is. -/
def HandsOut (r : Nat × Option OutPath) (_ : Nat) (bs : List (Nat × Nat)) : Prop :=
  ntSuccess r.1 = r.2.isSome ∧ bs = OutPath.blocks r.2

theorem handsOut_free {r : Nat × Option OutPath} (hstatus : ntSuccess r.1 = r.2.isSome)
    (id size n : Nat) :
    Does n (OutPath.blocks r.2 ++ [(id, size)]) (free id size >>= fun _ => pure r) HandsOut := by
  refine (@Does.free _ _ _ _ (fun _ _ bs => bs = OutPath.blocks r.2)
    (mem_append_right _ (mem_singleton_self _)) ?_).bind ?_
  · cases r.2 with
    | none => exact erase_cons_head ..
    | some out => exact erase_pair _ _
  · rintro - n' bs - rfl
    exact .pure ⟨hstatus, rfl⟩

theorem newPath_does (size : Nat) (path : List WChar) (n : Nat) :
    Does n [] (newPath env size path) HandsOut := by
  refine Does.seq (fun block _ bs => bs = (block.map fun id => (id, size)).toList)
    (.alloc (fun _ => rfl) fun _ => rfl) ?_
  rintro (_ | id) n' bs - rfl
  · exact .pure ⟨rfl, rfl⟩
  · exact .pure ⟨rfl, rfl⟩

theorem translateShares_does (path : List WChar) (n : Nat) :
    Does n [] (translateShares env path) HandsOut := by
  rw [translateShares]
  split
  · exact newPath_does _ _ n
  · dsimp only
    split
    · exact newPath_does _ _ n
    · exact .pure ⟨rfl, rfl⟩

theorem translateDrive_does (drive : WChar) (rest : List WChar) (n : Nat) :
    Does n [] (translateDrive env drive rest) HandsOut := by
  refine Does.seq (fun _ _ bs => bs = []) (.ask rfl) ?_
  rintro ⟨status, name⟩ n' bs - rfl
  split
  · generalize (name.length + rest.length + 1) * 2 + (if rest = [] then 2 else 0) = size
    refine Does.seq (fun block _ bs => bs = (block.map fun id => (id, size)).toList)
      (.alloc (fun _ => rfl) fun _ => rfl) ?_
    rintro (_ | id) n' bs - rfl
    · exact .pure ⟨rfl, rfl⟩
    refine ((translateShares_does _ n').frame [(id, size)]).bind ?_
    rintro ⟨status, out⟩ n' bs - ⟨bs', rfl, hstatus, rfl⟩
    split
    case isTrue hpc =>
      -- no share: `STATUS_BAD_INITIAL_PC` comes without a path
      rw [hpc] at hstatus
      obtain rfl : out = none := Option.not_isSome_iff_eq_none.mp (by rw [← hstatus]; decide)
      exact .pure ⟨rfl, rfl⟩
    case isFalse =>
      exact handsOut_free hstatus id size n'
  case isFalse hfailed =>
    exact .pure ⟨Bool.eq_false_of_not_eq_true hfailed, rfl⟩

theorem translateDosToNt_does (path : List WChar) (n : Nat) :
    Does n [] (translateDosToNt env path) HandsOut := by
  refine (translateShares_does path n).bind ?_
  rintro shares n' bs - ⟨hstatus, rfl⟩
  split
  case isTrue hpc =>
    have hnone : shares.2 = none := Option.not_isSome_iff_eq_none.mp (by
      rw [← hstatus, hpc]
      decide)
    rw [hnone]
    split
    · split
      · refine Does.seq (fun block _ bs =>
          bs = (block.map fun id => (id, (256 + 2) * 2)).toList)
          (.alloc (fun _ => rfl) fun _ => rfl) ?_
        rintro (_ | id) n'' bs - rfl
        · exact .pure ⟨rfl, rfl⟩
        · refine ((translateDrive_does _ _ n'').frame [(id, (256 + 2) * 2)]).bind ?_
          rintro ⟨status, out⟩ n'' bs - ⟨bs', rfl, hout, rfl⟩
          exact handsOut_free hout id _ n''
      · exact .pure ⟨rfl, rfl⟩
    · exact .pure ⟨rfl, rfl⟩
  case isFalse => exact .pure ⟨hstatus, rfl⟩

/-! ### Strings -/

/-- A result is nothing, or a string in the one block that the program has taken since `n`. -/
def Given (n : Nat) (r : Option WString) (n' : Nat) (bs : List (Nat × Nat)) : Prop :=
  match r with
  | none => bs = []
  | some s => ∃ id, s.block = some id ∧ n ≤ id ∧ id < n' ∧ bs = [(id, s.size)]

variable {n n' : Nat} {r : Option WString} {bs : List (Nat × Nat)}

theorem Given.earlier {n'' : Nat} (h : Given n' r n'' bs) (hn : n ≤ n') : Given n r n'' bs := by
  cases r with
  | none => exact h
  | some s =>
    obtain ⟨id, hid, hle, hlt, hbs⟩ := h
    exact ⟨id, hid, Nat.le_trans hn hle, hlt, hbs⟩

theorem memAllocString_does (text : List WChar) (n : Nat) :
    Does n [] (memAllocString env text) (Given n) := by
  refine Does.seq (fun block n' bs =>
    bs = (block.map fun id => (id, (text.length + 1) * 2)).toList ∧ ∀ id ∈ block, n ≤ id ∧ id < n')
    (.alloc (fun _ => ⟨rfl, ?_⟩) fun _ => ⟨rfl, nofun⟩) ?_
  · rintro id hid
    obtain rfl := Option.mem_some_iff.mp hid
    exact ⟨Nat.le_refl n, Nat.lt_succ_self n⟩
  · rintro (_ | id) n' bs - ⟨rfl, hid⟩
    · exact .pure rfl
    · obtain ⟨hle, hlt⟩ := hid id rfl
      exact .pure ⟨id, rfl, hle, hlt, rfl⟩

/-- The answer of `Conf_Expand_Helper`: the string it was given, or a new one, or nothing. -/
def Helped (n : Nat) (modelValue : WString) (r : Option WString × Bool) (n' : Nat)
    (bs : List (Nat × Nat)) : Prop :=
  (r.1 = some modelValue ∧ bs = []) ∨ Given n r.1 n' bs

theorem replaceVariable_does (before name after : List WChar) (n : Nat) (modelValue : WString) :
    Does n [] (replaceVariable env args before name after) (Helped n modelValue) := by
  refine (variableValue_quiet _ n).bind ?_
  rintro found n' bs hn rfl
  split
  · refine (memAllocString_does _ n').bind ?_
    rintro buf n'' bs - hbuf
    exact .pure (.inr (hbuf.earlier hn))
  · exact .pure (.inr rfl)

theorem copyPath_does {out : OutPath} (modelValue : WString) (n : Nat) :
    Does n [(out.block, out.size)] (copyPath env (some out)) (Helped n modelValue) := by
  refine ((memAllocString_does out.text n).frame [(out.block, out.size)]).bind ?_
  rintro buf n' bs - ⟨bs', rfl, hbuf⟩
  refine (@Does.free _ _ _ _ (fun _ n' bs => Given n buf n' bs)
    (mem_append_right _ (mem_singleton_self _)) ?_).bind ?_
  · cases buf with
    | none =>
      obtain rfl : bs' = [] := hbuf
      exact erase_cons_head ..
    | some s =>
      obtain ⟨id, hid, hle, hlt, rfl⟩ := hbuf
      exact ⟨id, hid, hle, hlt, erase_pair _ _⟩
  · rintro - n'' bs - hgiven
    exact .pure (.inr hgiven)

theorem expandHelper_does (modelValue : WString) (n : Nat) :
    Does n [] (expandHelper env args modelValue) (Helped n modelValue) := by
  rw [expandHelper]
  split
  · refine (memAllocString_does _ n).bind ?_
    rintro buf n' bs - hbuf
    exact .pure (.inr hbuf)
  refine (translateDosToNt_does _ n).bind ?_
  rintro ⟨status, out⟩ n' bs hn ⟨hstatus, rfl⟩
  split
  case isTrue hok =>
    obtain ⟨out, rfl⟩ := Option.isSome_iff_exists.mp (hstatus.symm.trans hok)
    refine (copyPath_does modelValue n').mono ?_
    rintro r n'' bs - (hsame | hgiven)
    · exact .inl hsame
    · exact .inr (hgiven.earlier hn)
  case isFalse hfailed =>
    obtain rfl : out = none := Option.not_isSome_iff_eq_none.mp (by rwa [← hstatus])
    split
    · split
      · exact .pure (.inl ⟨rfl, rfl⟩)
      · refine (replaceVariable_does _ _ _ n' modelValue).mono ?_
        rintro r n'' bs - (hsame | hgiven)
        · exact .inl hsame
        · exact .inr (hgiven.earlier hn)
    · exact .pure (.inr rfl)

/-! ### The loop -/

variable (env args) in
/-- From this string, at this time, the expansion comes to its end: `Conf_Expand_Helper` finds
nothing more to replace, or fails with turns to spare, in at most so many turns, and each string
it is given is at most 1024 characters long. -/
def Settles : Nat → Nat → Option WString → Prop
  | 0, _, _ => False
  | _ + 1, _, none => True
  | turns + 1, n, some old =>
    old.text.length ≤ 1024 ∧
      match expandHelper env args old ⟨[], n⟩ with
      | some (r, h) => r.1.map WString.block = some old.block ∨ Settles turns h.clock r.1
      | none => False

/-- What the loop holds at the start of a turn: the buffer, and the string if it is not the
caller's. -/
def Holds (buffer : Nat) (modelValue : WString) (newValue : Option WString) (n : Nat)
    (bs : List (Nat × Nat)) : Prop :=
  (newValue = some modelValue ∧ bs = [(buffer, pageSize)]) ∨
    ∃ bs', Given 0 newValue n bs' ∧ bs = bs' ++ [(buffer, pageSize)]

/-- How the loop ends: with the result only where the expansion settles, otherwise with the
buffer and nothing to show for it. -/
def Ends (settles : Prop) (buffer : Nat) (r : Option WString × Bool) (n : Nat)
    (bs : List (Nat × Nat)) : Prop :=
  (settles ∧ Given 0 r.1 n bs) ∨ (¬settles ∧ r.1 = none ∧ (buffer, pageSize) ∈ bs)

variable {buffer : Nat} {modelValue : WString}

theorem Holds.buffer_mem {newValue : Option WString} (h : Holds buffer modelValue newValue n bs) :
    (buffer, pageSize) ∈ bs := by
  rcases h with ⟨-, rfl⟩ | ⟨bs', -, rfl⟩
  · exact mem_singleton_self _
  · exact mem_append_right _ (mem_singleton_self _)

theorem finish_does (h : Given 0 r n bs) (suppressLog : Bool) :
    Does n (bs ++ [(buffer, pageSize)]) (finish buffer r suppressLog) fun r' n' bs' =>
      Given 0 r'.1 n' bs' := by
  refine (@Does.free _ _ _ _ (fun _ n' bs' => Given 0 r n' bs')
    (mem_append_right _ (mem_singleton_self _)) ?_).bind ?_
  · cases r with
    | none =>
      obtain rfl : bs = [] := h
      exact erase_cons_head ..
    | some s =>
      obtain ⟨id, hid, hle, hlt, rfl⟩ := h
      exact ⟨id, hid, hle, hlt, erase_pair _ _⟩
  · rintro - n' bs' - hgiven
    exact .pure hgiven

theorem Given.ne {old : WString} {bs' : List (Nat × Nat)} (hgiven : Given n r n' bs')
    (hmodel : modelValue.block = none)
    (hold : Holds buffer modelValue (some old) n bs) :
    r.map WString.block ≠ some old.block := by
  intro hsame
  cases r with
  | none => cases hsame
  | some s =>
    obtain ⟨id, hid, hle, -, -⟩ := hgiven
    have hblock : old.block = some id := (Option.some.inj hsame).symm.trans hid
    rcases hold with ⟨hcaller, -⟩ | ⟨bs'', ⟨id', hid', -, hlt, -⟩, -⟩
    · rw [Option.some.inj hcaller, hmodel] at hblock
      cases hblock
    · obtain rfl : id' = id := Option.some.inj (hid'.symm.trans hblock)
      exact absurd hlt (Nat.not_lt.mpr hle)

theorem freeOld_does {old : WString} {bs' : List (Nat × Nat)} (hgiven : Given n r n' bs')
    (hmodel : modelValue.block = none)
    (hold : Holds buffer modelValue (some old) n bs) :
    Does n' (bs' ++ bs) (freeOld modelValue old) fun _ n'' bs'' =>
      n'' = n' ∧ bs'' = bs' ++ [(buffer, pageSize)] := by
  rw [freeOld]
  rcases hold with ⟨hcaller, rfl⟩ | ⟨bs'', ⟨id, hid, -, hlt, rfl⟩, rfl⟩
  · rw [if_pos (by rw [Option.some.inj hcaller])]
    exact .pure ⟨rfl, rfl⟩
  rw [if_neg (by rw [hid, hmodel]; nofun), memFreeString, hid]
  refine .free (mem_append_right _ mem_cons_self) ⟨rfl, ?_⟩
  -- the new string is younger than the old one
  have hnew : (id, old.size) ∉ bs' := by
    cases r with
    | none =>
      obtain rfl : bs' = [] := hgiven
      exact not_mem_nil
    | some s =>
      obtain ⟨id', -, hle, -, rfl⟩ := hgiven
      intro hmem
      have heq : id = id' := congrArg Prod.fst (mem_singleton.mp hmem)
      omega
  rw [erase_append_right _ hnew]
  exact congrArg (bs' ++ ·) (erase_cons_head ..)

theorem settled_does {old : WString} (hold : Holds buffer modelValue (some old) n bs)
    (hmodel : modelValue.block = none)
    (hn : n ≤ n') (suppressLog : Bool) :
    Does n' bs (if old.block = modelValue.block then do
        let copy ← memAllocString env old.text
        finish buffer copy suppressLog
      else finish buffer (some old) suppressLog) fun r n'' bs' => Given 0 r.1 n'' bs' := by
  rcases hold with ⟨hcaller, rfl⟩ | ⟨bs', ⟨id, hid, hle, hlt, rfl⟩, rfl⟩
  · rw [if_pos (by rw [Option.some.inj hcaller])]
    refine ((memAllocString_does old.text n').frame [(buffer, pageSize)]).bind ?_
    rintro copy n'' bs'' - ⟨bs', rfl, hcopy⟩
    exact finish_does (hcopy.earlier (Nat.zero_le n')) suppressLog
  · rw [if_neg (by rw [hid, hmodel]; nofun)]
    have hgiven : Given 0 (some old) n' [(id, old.size)] :=
      ⟨id, hid, hle, Nat.lt_of_lt_of_le hlt hn, rfl⟩
    exact finish_does hgiven suppressLog

/-- **The loop of `Conf_Expand_2`**, by the turns that are left before the limit. -/
theorem expandLoop_does {buffer : Nat} {modelValue : WString} (hmodel : modelValue.block = none)
    {turns fuel retries n : Nat} {newValue : Option WString} {suppressLog : Bool}
    {bs : List (Nat × Nat)} (hturns : retries + turns = retryLimit + 1) (hfuel : turns ≤ fuel)
    (hpos : 0 < turns) (hholds : Holds buffer modelValue newValue n bs) :
    Does n bs (expandLoop env args buffer modelValue fuel retries newValue suppressLog)
      (Ends (Settles env args turns n newValue) buffer) := by
  induction turns generalizing fuel retries n newValue suppressLog bs with
  | zero => exact absurd hpos (Nat.lt_irrefl 0)
  | succ turns ih =>
    obtain ⟨fuel, rfl⟩ : ∃ f, fuel = f + 1 := ⟨fuel - 1, by omega⟩
    cases newValue with
    | none =>
      obtain ⟨hnone, -⟩ | ⟨bs', hgiven, rfl⟩ := hholds
      · cases hnone
      · refine (finish_does hgiven suppressLog).mono ?_
        rintro r n' bs - hr
        exact .inl ⟨trivial, hr⟩
    | some old =>
      rw [expandLoop]
      split
      case isTrue hlong =>
        exact .pure (.inr ⟨fun hsettles => absurd hlong (Nat.not_lt.mpr hsettles.1), rfl,
          hholds.buffer_mem⟩)
      case isFalse hshort =>
        obtain ⟨r, n', bs', hn, hhelped, hrun⟩ := @expandHelper_does env args old n
        have hstep : Does n [] (expandHelper env args old) fun a m cs =>
          a = r ∧ m = n' ∧ cs = bs' :=
          ⟨r, n', bs', hn, ⟨rfl, rfl, rfl⟩, hrun⟩
        have hsettles : Settles env args (turns + 1) n (some old) ↔
            r.1.map WString.block = some old.block ∨ Settles env args turns n' r.1 := by
          have hrun₀ := hrun []
          rw [append_nil, append_nil] at hrun₀
          rw [Settles, hrun₀]
          exact and_iff_right (Nat.not_lt.mp hshort)
        refine (hstep.frame bs).bind ?_
        rintro a m cs - ⟨cs', rfl, rfl, rfl, rfl⟩
        split
        case isTrue hsame =>
          rcases hhelped with ⟨hr, rfl⟩ | hgiven
          · rw [hr]
            refine (settled_does hholds hmodel hn a.2).mono ?_
            rintro r' n'' bs'' - hr'
            exact .inl ⟨hsettles.mpr (.inl hsame), hr'⟩
          · exact absurd hsame (hgiven.ne hmodel hholds)
        case isFalse hother =>
          have hgiven : Given n a.1 m cs' := by
            rcases hhelped with ⟨hr, -⟩ | hgiven
            · exact absurd (by rw [hr]; rfl) hother
            · exact hgiven
          refine (freeOld_does hgiven hmodel hholds).bind ?_
          rintro - m' ds - ⟨rfl, rfl⟩
          split
          case isTrue hlimit =>
            obtain rfl : turns = 0 := by omega
            exact .pure (.inr ⟨fun h => (hsettles.mp h).elim hother id, rfl,
              mem_append_right _ (mem_singleton_self _)⟩)
          case isFalse hmore =>
            refine (@ih fuel (retries + 1) _ _ _ _ (by omega) (by omega) (by omega)
              (.inr ⟨cs', hgiven.earlier (Nat.zero_le n), rfl⟩)).mono ?_
            rintro r' n'' bs'' - (⟨hs, hr'⟩ | ⟨hs, hleak⟩)
            · exact .inl ⟨hsettles.mpr (.inr hs), hr'⟩
            · exact .inr ⟨fun h => (hsettles.mp h).elim hother hs, hleak⟩

/-! ### The result -/

theorem logSource_quiet (modelValue : List WChar) (settingName : Option (List WChar))
    (suppressLog : Bool) : Quiet (logSource env args modelValue settingName suppressLog) :=
  .buffer (fun _ => .pure _) (.pure _) fun _ => .pure _

variable (env args) in
/-- The buffer cannot be had, or the expansion comes to its end within the limits. -/
def EndsInTime (modelValue : List WChar) (n : Nat) : Prop :=
  env.grant n = false ∨
    Settles env args (retryLimit + 1) (n + 1) (some { block := none, text := modelValue })

/-- How `Conf_Expand` ends. -/
def EndsWith (inTime : Prop) (r : Option WString) (n : Nat) (bs : List (Nat × Nat)) : Prop :=
  (inTime ∧ Given 0 r n bs) ∨ (¬inTime ∧ r = none ∧ bs ≠ [])

theorem expand2_does {fuel : Nat} (hfuel : retryLimit < fuel) (modelValue : List WChar)
    (n : Nat) :
    Does n [] (expand2 env args fuel modelValue) fun r n' bs =>
      EndsWith (EndsInTime env args modelValue n) r.1 n' bs := by
  refine Does.seq (fun block n' bs => block = (if env.grant n then some n else none) ∧
    n' = n + 1 ∧ bs = (block.map fun id => (id, pageSize)).toList)
    (.alloc (fun h => ⟨(if_pos h).symm, rfl, rfl⟩)
      fun h => ⟨(if_neg (by rw [h]; exact Bool.false_ne_true)).symm, rfl, rfl⟩) ?_
  rintro block n' bs - ⟨hblock, rfl, rfl⟩
  cases hgrant : env.grant n with
  | false =>
    rw [hgrant] at hblock
    obtain rfl : block = none := hblock
    exact .pure (.inl ⟨.inl hgrant, rfl⟩)
  | true =>
    rw [hgrant] at hblock
    obtain rfl : block = some n := hblock
    have hin : EndsInTime env args modelValue n ↔ Settles env args (retryLimit + 1) (n + 1)
        (some { block := none, text := modelValue }) := by
      rw [EndsInTime, hgrant]
      exact or_iff_right (by decide)
    refine (expandLoop_does rfl (Nat.zero_add _) hfuel (Nat.succ_pos _) (.inl ⟨rfl, rfl⟩)).mono ?_
    rintro r n' bs - (⟨hs, hr⟩ | ⟨hs, hnone, hmem⟩)
    · exact .inl ⟨hin.mpr hs, hr⟩
    · exact .inr ⟨fun h => hs (hin.mp h), hnone, ne_nil_of_mem hmem⟩

theorem confExpandEx_does {fuel : Nat} (hfuel : retryLimit < fuel) (modelValue : List WChar)
    (settingName : Option (List WChar)) (n : Nat) :
    Does n [] (confExpandEx env args fuel modelValue settingName) fun r n' bs =>
      EndsWith (EndsInTime env args modelValue n) r.1 n' bs := by
  refine (expand2_does hfuel modelValue n).bind ?_
  rintro ⟨newValue, suppressLog⟩ n' bs - hends
  cases newValue with
  | some newValue => exact .pure hends
  | none =>
    refine ((logSource_quiet modelValue settingName suppressLog).does n' bs).bind ?_
    rintro line n'' bs' - rfl
    refine .pure ?_
    rcases hends with ⟨hin, hgiven⟩ | ⟨hout, hnone, hbs⟩
    · exact .inl ⟨hin, hgiven⟩
    · exact .inr ⟨hout, hnone, hbs⟩

theorem confExpand_does {fuel : Nat} (hfuel : retryLimit < fuel) (modelValue : List WChar)
    (settingName : Option (List WChar)) (n : Nat) :
    Does n [] (confExpand env args fuel modelValue settingName)
      (EndsWith (EndsInTime env args modelValue n)) := by
  refine (confExpandEx_does hfuel modelValue settingName n).bind ?_
  rintro r n' bs - hends
  exact .pure hends

/-- The program ends with nothing and the blocks as before, or with one string in one more
block. -/
def LeaksNothing (p : Prog (Option WString)) (h : Heap) : Prop :=
  ∃ r h', p h = some (r, h') ∧
    match r with
    | none => h'.live.Perm h.live
    | some s => ∃ id, s.block = some id ∧ h'.live.Perm ((id, s.size) :: h.live)

variable (env args) in
/-- `Conf_Expand` leaks nothing, and has its result after as many replacements as the limit
allows, whatever turns it is given beyond. -/
def ExpandsCleanly (modelValue : List WChar) (settingName : Option (List WChar)) (h : Heap) :
    Prop :=
  ∀ fuel, retryLimit < fuel → LeaksNothing (confExpand env args fuel modelValue settingName) h

theorem leaksNothing_iff {fuel : Nat} (hfuel : retryLimit < fuel) (modelValue : List WChar)
    (settingName : Option (List WChar)) (h : Heap) :
    LeaksNothing (confExpand env args fuel modelValue settingName) h ↔
      EndsInTime env args modelValue h.clock := by
  obtain ⟨r, n', bs, -, hends, hrun⟩ :=
    @confExpand_does env args _ hfuel modelValue settingName h.clock
  have hrun := hrun h.live
  constructor
  · rintro ⟨r', h', hrun', hr'⟩
    obtain ⟨rfl, rfl⟩ := Prod.mk.inj (Option.some.inj (hrun.symm.trans hrun'))
    rcases hends with ⟨hin, -⟩ | ⟨-, rfl, hbs⟩
    · exact hin
    · have hlen : (bs ++ h.live).length = h.live.length := hr'.length_eq
      rw [length_append] at hlen
      exact absurd (eq_nil_of_length_eq_zero (by omega)) hbs
  · intro hin
    refine ⟨r, _, hrun, ?_⟩
    rcases hends with ⟨-, hgiven⟩ | ⟨hout, -⟩
    · cases r with
      | none =>
        obtain rfl : bs = [] := hgiven
        exact List.Perm.refl _
      | some s =>
        obtain ⟨id, hid, -, -, rfl⟩ := hgiven
        exact ⟨id, hid, List.Perm.refl _⟩
    · exact absurd hin hout

def plainEnv : Env where
  towlower := asciiLower
  grant _ := true
  conf _ := emptyData 0 none
  getRegString _ _ _ _ := (nameNotFound, [])
  translateSymlinks _ _ := (pathSyntaxBad, [])
  users _ := []
  unloading _ := false
  sendServiceMessage _ := false
  homePathNt := []

def plainArgs : Args where
  sandbox := wide ['B']
  sid := wide ['S']
  session := 1

/-- **The expansion leaks nothing exactly where it ends within its limits.** -/
theorem expandsCleanly_iff (modelValue : List WChar) (settingName : Option (List WChar))
    (h : Heap) :
    ExpandsCleanly env args modelValue settingName h ↔
      EndsInTime env args modelValue h.clock := by
  constructor
  · intro hclean
    exact (leaksNothing_iff (Nat.lt_succ_self _) modelValue settingName h).mp
      (hclean _ (Nat.lt_succ_self _))
  · rintro hin fuel hfuel
    exact (leaksNothing_iff hfuel modelValue settingName h).mpr hin

/-- A text of 1025 characters is given up with the buffer still taken. -/
theorem not_expandsCleanly_long :
    ¬ExpandsCleanly plainEnv plainArgs (List.replicate 1025 97) none ⟨[], 0⟩ := by
  intro hclean
  have hin : EndsInTime plainEnv plainArgs (List.replicate 1025 97) 0 :=
    (leaksNothing_iff (Nat.lt_succ_self _) _ none ⟨[], 0⟩).mp (hclean _ (Nat.lt_succ_self _))
  rcases hin with hgrant | ⟨hshort, -⟩
  · exact Bool.noConfusion hgrant
  · rw [length_replicate] at hshort
    exact absurd hshort (by decide)

end Sandboxie.ConfExpand
