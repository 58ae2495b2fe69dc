import Sandboxie.Common.NetFwNumbers

/-!
# The texts that are parsed as they should be

`NetFw_ParseRule` stays inside of its text and of its buffers, whatever these hold before, for the
texts where each number ends within what is copied of it and no list goes over its end; for these
it stores the ports that the text names.
-/

namespace Sandboxie.NetFw

open StrUtil RangeMap List

/-! ### The elements of a list -/

/-- The elements of the list of a tag, from `p` to `fin`. -/
inductive Elements (t : CText) (fin : Nat) : Nat → List (List WChar) → Prop
  | nil {p : Nat} (h : fin ≤ p) : Elements t fin p []
  | cons {p v len q : Nat} {es : List (List WChar)} (h : p < fin)
    (hget : getTagValue t p (some fin) comma = .ok ⟨some v, len, some q⟩)
    (hmore : Elements t fin q es) : Elements t fin p ((t.chars.drop v).take len :: es)

/-- **A well-formed port number or range.** -/
def Denotes (e : List WChar) (a b : Nat) : Prop :=
  (Number e a ∧ a = b) ∨ ∃ t1 t2, e = t1 ++ dash :: t2 ∧ Number t1 a ∧ Number t2 b

def Exact (e : List WChar) (r : Range Port) : Prop :=
  ∀ a b, Denotes e a b → r.first.val = a ∧ r.last.val = b

/-- The elements of a list can be walked over, and each is as it should be. -/
inductive Sound (t : CText) (fin : Nat) (ok : Nat → Nat → Nat → Prop) : Nat → Prop
  | done {p : Nat} (h : fin ≤ p) : Sound t fin ok p
  | next {p v len q : Nat} (h : p < fin)
    (hget : getTagValue t p (some fin) comma = .ok ⟨some v, len, some q⟩) (hok : ok v len q)
    (hmore : Sound t fin ok q) : Sound t fin ok p

/-- Each number of a port element ends. -/
def PortOk (t : CText) (v len q : Nat) : Prop :=
  match wcsnchr t v len dash with
  | .ok none => Stops t v len
  | .ok (some d) => Stops t v (d - v) ∧ Stops t (d + 1) (ulongSub q (d + 1))
  | .error _ => False

/-- The second address of a range is inside of the text. -/
def IpOk (t : CText) (v len q : Nat) : Prop :=
  match wcsnchr t v len dash with
  | .ok none => True
  | .ok (some d) => d + 1 + min (ulongSub q (d + 1)) 46 ≤ t.chars.length + 1
  | .error _ => False

variable {t : CText}

theorem mem_number_ne {s : List WChar} {n : Nat} (h : Number s n) : dash ∉ s := by
  obtain ⟨before, digits, after, rfl, hbefore, hafter, -, hdigits, -, -⟩ := h
  simp only [mem_append, not_or]
  refine ⟨fun h => ?_, fun h => ?_, fun h => ?_⟩
  · exact nomatch hbefore _ h
  · exact nomatch hdigits _ h
  · exact nomatch hafter _ h

theorem slice_eq {v len : Nat} (h : v + len ≤ t.chars.length) :
    slice t v len = (t.chars.drop v).take len := by
  rw [slice, drop_append_of_le_length (by omega), take_append_of_le_length]
  rw [length_drop]
  omega

theorem wcsnchr_cases {v len : Nat} (h : v + len ≤ t.chars.length) (c : WChar) :
    (wcsnchr t v len c = .ok none ∧ c ∉ (t.chars.drop v).take len) ∨
      ∃ d, wcsnchr t v len c = .ok (some d) ∧ v ≤ d ∧ d < v + len ∧
        c ∉ (t.chars.drop v).take (d - v) ∧
        (t.chars.drop v).take len = (t.chars.drop v).take (d - v) ++
          c :: (t.chars.drop (d + 1)).take (v + len - (d + 1)) := by
  rw [wcsnchr, if_pos (by omega)]
  cases hfind : ((t.chars.drop v).take len).findIdx? (· == c) with
  | none =>
    refine .inl ⟨rfl, fun hmem => ?_⟩
    have hnot := findIdx?_eq_none_iff.mp hfind c hmem
    rw [beq_self_eq_true] at hnot
    exact nomatch hnot
  | some k =>
    obtain ⟨hk, hck, hbefore⟩ := findIdx?_eq_some_iff_getElem.mp hfind
    have hklen : k < len := by
      rw [length_take] at hk
      omega
    rw [beq_iff_eq] at hck
    have htake : ((t.chars.drop v).take len).take k = (t.chars.drop v).take k := by
      rw [take_take, min_eq_left hklen.le]
    refine .inr ⟨v + k, rfl, Nat.le_add_right _ _, by omega, ?_, ?_⟩
    · rw [Nat.add_sub_cancel_left, ← htake]
      intro hmem
      obtain ⟨i, hi, hci⟩ := mem_iff_getElem.mp hmem
      rw [length_take] at hi
      rw [getElem_take] at hci
      have hnot := hbefore i (by omega)
      rw [hci, beq_self_eq_true] at hnot
      exact hnot rfl
    · rw [Nat.add_sub_cancel_left]
      conv_lhs => rw [← take_append_drop k ((t.chars.drop v).take len)]
      rw [htake, drop_eq_getElem_cons hk, hck, drop_take, drop_drop,
        ← Nat.add_assoc v k 1]
      congr 3
      omega

theorem drop_eq_cons {p : Nat} {c : WChar} (h : charAt t p = .ok c) :
    (t.chars ++ [0]).drop p = c :: (t.chars ++ [0]).drop (p + 1) := by
  have hle := le_of_charAt h
  have hlt : p < (t.chars ++ [0]).length := by
    rw [length_append, length_singleton]
    omega
  rw [charAt, if_pos hle, getD_eq_getElem?_getD, getElem?_eq_getElem hlt] at h
  rw [drop_eq_getElem_cons hlt]
  exact congrArg (· :: _) (Except.ok.inj h)

theorem slice_front {p n m : Nat} (h : n ≤ m) : slice t p n <+: slice t p m := by
  rw [slice, slice, ← Nat.min_eq_left h, ← take_take]
  exact take_prefix _ _

theorem slice_split {p n m : Nat} {c : WChar} (h : n < m) (hc : charAt t (p + n) = .ok c) :
    ∃ r, slice t p m = slice t p n ++ c :: r := by
  obtain ⟨k, rfl⟩ := Nat.exists_eq_add_of_lt h
  refine ⟨slice t (p + n + 1) k, ?_⟩
  rw [slice, slice, slice, show n + k + 1 = n + (k + 1) by omega, take_add, drop_drop,
    drop_eq_cons hc, take_succ_cons]

theorem isBlank_of_isTrimmed {c : WChar} (h : isTrimmed c = true) : isBlank c = true := by
  simp only [isTrimmed, Bool.or_eq_true, beq_iff_eq] at h
  rcases h with (rfl | rfl) | rfl <;> rfl

theorem exact_port {v len q p fin : Nat} (hin : Inside t p (some fin) comma v len q) :
    (wcsnchr t v len dash = .ok none → ∀ n, wtoi (slice t v len) = some n →
      Exact ((t.chars.drop v).take len) ⟨ushort n, ushort n⟩) ∧
    (∀ d, wcsnchr t v len dash = .ok (some d) → ∀ n1 n2, Stops t (d + 1) (ulongSub q (d + 1)) →
      wtoi (slice t v (d - v)) = some n1 →
      wtoi (slice t (d + 1) (ulongSub q (d + 1))) = some n2 →
        Exact ((t.chars.drop v).take len) ⟨ushort n1, ushort n2⟩) := by
  have hushort : ∀ n, n < 2 ^ 16 → (ushort n).val = n := fun n hn => Nat.mod_eq_of_lt hn
  constructor
  · intro hnone n hn a b hdenotes
    rcases wcsnchr_cases hin.value dash with ⟨-, hnot⟩ | ⟨d, hd, -⟩
    · rcases hdenotes with ⟨hnumber, rfl⟩ | ⟨t1, t2, heq, -, -⟩
      · rw [slice_eq hin.value] at hn
        have hna := number_wtoi hnumber hn (.inl prefix_rfl)
        obtain ⟨-, -, -, -, -, -, -, -, -, hlt⟩ := hnumber
        subst hna
        exact ⟨hushort n hlt, hushort n hlt⟩
      · rw [heq] at hnot
        exact absurd (mem_append_right _ mem_cons_self) hnot
    · rw [hd] at hnone
      exact nomatch hnone
  · intro d hd n1 n2 hstops hn1 hn2 a b hdenotes
    rcases wcsnchr_cases hin.value dash with ⟨hnone, -⟩ | ⟨d', hd', hvd, hdlen, hnot, heq⟩
    · rw [hd] at hnone
      exact nomatch hnone
    obtain rfl : d' = d := by
      rw [hd] at hd'
      exact (Option.some.inj (Except.ok.inj hd')).symm
    rcases hdenotes with ⟨hnumber, -⟩ | ⟨t1, t2, heq', h1, h2⟩
    · refine absurd ?_ (mem_number_ne hnumber)
      rw [heq]
      exact mem_append_right _ mem_cons_self
    -- both split the element at its first dash
    rw [heq] at heq'
    obtain ⟨rfl, rfl⟩ := Text.split_unique hnot (mem_number_ne h1) heq'
    have hvalue := hin.value
    have ha : n1 = a := by
      rw [slice_eq (by omega)] at hn1
      exact number_wtoi h1 hn1 (.inl prefix_rfl)
    have hb : n2 = b := by
      refine number_wtoi h2 hn2 ?_
      have hle : d' + 1 ≤ q := by
        by_contra hlt
        have hfits := hstops.fits
        rw [ulongSub, if_neg hlt] at hfits
        have hshort := t.short
        omega
      rw [ulongSub_of_le hle, ← slice_eq (by omega)]
      by_cases hq : q ≤ v + len
      · exact .inl (slice_front (by omega))
      obtain ⟨c, hc, hstop⟩ := hin.stop (Nat.lt_of_not_le hq)
      have hpos : d' + 1 + (v + len - (d' + 1)) = v + len := by omega
      rw [← hpos] at hc
      obtain ⟨r, hr⟩ := slice_split (m := q - (d' + 1)) (by omega) hc
      refine .inr ⟨c, r, hr, ?_⟩
      rcases hstop with rfl | htrim | rfl | rfl
      · rfl
      · exact isDigit_of_isBlank (isBlank_of_isTrimmed htrim)
      · rfl
      · rfl
    obtain ⟨-, -, -, -, -, -, -, -, -, hlt1⟩ := h1
    obtain ⟨-, -, -, -, -, -, -, -, -, hlt2⟩ := h2
    subst ha hb
    exact ⟨hushort n1 hlt1, hushort n2 hlt2⟩

/-! ### The loops -/

section Loops

variable {fin : Nat}

variable {p v len q : Nat}

theorem parsePorts_succ {stale : Nat → Tmp} {fuel n : Nat} {map : RangeMap Port}
    (hp : p < fin) (hget : getTagValue t p (some fin) comma = .ok ⟨some v, len, some q⟩) :
    parsePorts t stale fin (fuel + 1) p n map = (do
      match ← wcsnchr t v len dash with
      | some d =>
        let port1 ← wntoi t (stale n) v (d - v)
        let port2 ← wntoi t (stale (n + 1)) (d + 1) (ulongSub q (d + 1))
        parsePorts t stale fin fuel q (n + 2) (ruleAddPortRange map (ushort port1) (ushort port2))
      | none =>
        let port ← wntoi t (stale n) v len
        parsePorts t stale fin fuel q (n + 1)
          (ruleAddPortRange map (ushort port) (ushort port))) := by
  rw [parsePorts, if_pos hp, hget]
  exact ok_bind _ _

theorem parseIps_succ {fuel : Nat} {map : RangeMap IpAddress}
    (hp : p < fin) (hget : getTagValue t p (some fin) comma = .ok ⟨some v, len, some q⟩) :
    parseIps t fin (fuel + 1) p map = (do
      match ← wcsnchr t v len dash with
      | some d =>
        let ip1 ← inetXton t v (d - v)
        let ip2 ← inetXton t (d + 1) (ulongSub q (d + 1))
        parseIps t fin fuel q (ruleAddIpRange map ip1.2 ip2.2)
      | none =>
        let ip ← inetXton t v len
        parseIps t fin fuel q (ruleAddIpRange map ip.2 ip.2)) := by
  rw [parseIps, if_pos hp, hget]
  exact ok_bind _ _

theorem inside_of_get (hfin : fin ≤ t.chars.length) (hp : p < fin)
    (hget : getTagValue t p (some fin) comma = .ok ⟨some v, len, some q⟩) :
    Inside t p (some fin) comma v len q := by
  have hend : ∀ e ∈ some fin, e ≤ t.chars.length := by
    rintro e ⟨⟩
    exact hfin
  have hsep : comma ≠ 0 := by decide
  rcases getTagValue_cases (by omega : p ≤ t.chars.length) hend hsep with
    hnull | ⟨v', len', q', hfound, hinside⟩ | ⟨herror, -⟩
  · rw [hnull] at hget
    exact nomatch Except.ok.inj hget
  · rw [hfound] at hget
    obtain ⟨⟩ := Except.ok.inj hget
    exact hinside
  · rw [herror] at hget
    exact nomatch hget

theorem parse_get (hfin : fin ≤ t.chars.length) (hp : p < fin) :
    (∃ v len q, getTagValue t p (some fin) comma = .ok ⟨some v, len, some q⟩) ∨
    (∀ stale fuel n map m, parsePorts t stale fin (fuel + 1) p n map ≠ .ok m) ∧
      ∀ fuel map m, parseIps t fin (fuel + 1) p map ≠ .ok m := by
  have hend : ∀ e ∈ some fin, e ≤ t.chars.length := by
    rintro e ⟨⟩
    exact hfin
  have hsep : comma ≠ 0 := by decide
  rcases getTagValue_cases (by omega : p ≤ t.chars.length) hend hsep with
    hnull | ⟨v, len, q, hfound, -⟩ | ⟨herror, -⟩
  · refine .inr ⟨fun stale fuel n map m h => ?_, fun fuel map m h => ?_⟩
    · rw [parsePorts, if_pos hp, hnull, ok_bind] at h
      exact nomatch h
    · rw [parseIps, if_pos hp, hnull, ok_bind] at h
      exact nomatch h
  · exact .inl ⟨v, len, q, hfound⟩
  · refine .inr ⟨fun stale fuel n map m h => ?_, fun fuel map m h => ?_⟩
    · rw [parsePorts, if_pos hp, herror, error_bind] at h
      exact nomatch h
    · rw [parseIps, if_pos hp, herror, error_bind] at h
      exact nomatch h

/-- **A loop that goes well for a buffer of digits has sound elements.** -/
theorem sound_of_parsePorts (hfin : fin ≤ t.chars.length) : ∀ {fuel p n : Nat}
    {map m : RangeMap Port}, parsePorts t (fun _ => nines) fin fuel p n map = .ok m →
      Sound t fin (PortOk t) p := by
  intro fuel
  induction fuel with
  | zero => exact fun h => nomatch h
  | succ fuel ih =>
    intro p n map m h
    by_cases hp : p < fin
    · rcases parse_get hfin hp with ⟨v, len, q, hget⟩ | ⟨hnot, -⟩
      · rw [parsePorts_succ hp hget] at h
        obtain ⟨found, hfound, h⟩ := bind_ok h
        have hok : PortOk t v len q ∧ Sound t fin (PortOk t) q := by
          rw [PortOk, hfound]
          cases found with
          | none =>
            obtain ⟨port, hport, h⟩ := bind_ok h
            exact ⟨stops_of_wntoi hport, ih h⟩
          | some d =>
            obtain ⟨port1, hport1, h⟩ := bind_ok h
            obtain ⟨port2, hport2, h⟩ := bind_ok h
            exact ⟨⟨stops_of_wntoi hport1, stops_of_wntoi hport2⟩, ih h⟩
        exact .next hp hget hok.1 hok.2
      · exact absurd h (hnot _ _ _ _ _)
    · exact .done (Nat.not_lt.mp hp)

/-- **Sound elements are stored, and the well-formed ones are stored right.** -/
theorem parsePorts_of_sound (hfin : fin ≤ t.chars.length) (h : Sound t fin (PortOk t) p)
    (stale : Nat → Tmp) : ∀ (fuel n : Nat) (map : RangeMap Port),
      0 < fuel → (p < fin → fin < p + fuel) → ∃ es ranges,
        parsePorts t stale fin fuel p n map =
          .ok (ranges.foldl (fun m r => ruleAddPortRange m r.first r.last) map) ∧
        Elements t fin p es ∧ List.Forall₂ Exact es ranges := by
  induction h with
  | done hle =>
    intro fuel n map hpos _
    obtain ⟨fuel, rfl⟩ := Nat.exists_eq_succ_of_ne_zero hpos.ne'
    refine ⟨[], [], ?_, .nil hle, .nil⟩
    rw [parsePorts, if_neg (Nat.not_lt.mpr hle)]
    rfl
  | @next p v len q hp hget hok _ ih =>
    intro fuel n map hpos hfuel
    obtain ⟨fuel, rfl⟩ := Nat.exists_eq_succ_of_ne_zero hpos.ne'
    have hlt := hfuel hp
    have hinside := inside_of_get hfin hp hget
    have hpos' : 0 < fuel := by omega
    have hfuel' : q < fin → fin < q + fuel := by
      intro hq
      rcases hinside.progress with h | h
      · omega
      · rw [Option.getD_some] at h
        omega
    obtain ⟨hone, htwo⟩ := exact_port hinside
    rw [parsePorts_succ hp hget]
    rcases wcsnchr_cases hinside.value dash with ⟨hnone, -⟩ | ⟨d, hd, -⟩
    · rw [PortOk, hnone] at hok
      obtain ⟨m, hm, hread⟩ := Stops.wntoi hok
      obtain ⟨es, ranges, hmore, hes, hexact⟩ := ih fuel (n + 1)
        (ruleAddPortRange map (ushort m) (ushort m)) hpos' hfuel'
      refine ⟨_, ⟨ushort m, ushort m⟩ :: ranges, ?_, .cons hp hget hes,
        .cons (hone hnone m hm) hexact⟩
      rw [hnone, ok_bind]
      rw [hread, ok_bind, hmore]
      rfl
    · rw [PortOk, hd] at hok
      obtain ⟨m1, hm1, hread1⟩ := Stops.wntoi hok.1
      obtain ⟨m2, hm2, hread2⟩ := Stops.wntoi hok.2
      obtain ⟨es, ranges, hmore, hes, hexact⟩ := ih fuel (n + 2)
        (ruleAddPortRange map (ushort m1) (ushort m2)) hpos' hfuel'
      refine ⟨_, ⟨ushort m1, ushort m2⟩ :: ranges, ?_, .cons hp hget hes,
        .cons (htwo d hd m1 m2 hok.2 hm1 hm2) hexact⟩
      rw [hd, ok_bind]
      dsimp only
      rw [hread1, ok_bind, hread2, ok_bind, hmore]
      rfl

theorem inetXton_ok {max : Nat} :
    (∃ ip, inetXton t p max = .ok ip) ↔ p + min max 46 ≤ t.chars.length + 1 := by
  rw [inetXton]
  constructor
  · rintro ⟨ip, h⟩
    split_ifs at h with hlt
    exact Nat.not_lt.mp hlt
  · intro h
    rw [if_neg (Nat.not_lt.mpr h)]
    exact ⟨_, rfl⟩

theorem sound_of_parseIps (hfin : fin ≤ t.chars.length) : ∀ {fuel p : Nat}
    {map m : RangeMap IpAddress}, parseIps t fin fuel p map = .ok m →
      Sound t fin (IpOk t) p := by
  intro fuel
  induction fuel with
  | zero => exact fun h => nomatch h
  | succ fuel ih =>
    intro p map m h
    by_cases hp : p < fin
    · rcases parse_get hfin hp with ⟨v, len, q, hget⟩ | ⟨-, hnot⟩
      · rw [parseIps_succ hp hget] at h
        obtain ⟨found, hfound, h⟩ := bind_ok h
        have hok : IpOk t v len q ∧ Sound t fin (IpOk t) q := by
          rw [IpOk, hfound]
          cases found with
          | none =>
            obtain ⟨ip, -, h⟩ := bind_ok h
            exact ⟨trivial, ih h⟩
          | some d =>
            obtain ⟨ip1, -, h⟩ := bind_ok h
            obtain ⟨ip2, hip2, h⟩ := bind_ok h
            exact ⟨inetXton_ok.mp ⟨ip2, hip2⟩, ih h⟩
        exact .next hp hget hok.1 hok.2
      · exact absurd h (hnot _ _ _)
    · exact .done (Nat.not_lt.mp hp)

theorem parseIps_of_sound (hfin : fin ≤ t.chars.length) (h : Sound t fin (IpOk t) p) :
    ∀ (fuel : Nat) (map : RangeMap IpAddress), 0 < fuel → (p < fin → fin < p + fuel) →
      ∃ m, parseIps t fin fuel p map = .ok m := by
  induction h with
  | done hle =>
    intro fuel map hpos _
    obtain ⟨fuel, rfl⟩ := Nat.exists_eq_succ_of_ne_zero hpos.ne'
    exact ⟨map, by rw [parseIps, if_neg (Nat.not_lt.mpr hle)]⟩
  | @next p v len q hp hget hok _ ih =>
    intro fuel map hpos hfuel
    obtain ⟨fuel, rfl⟩ := Nat.exists_eq_succ_of_ne_zero hpos.ne'
    have hlt := hfuel hp
    have hinside := inside_of_get hfin hp hget
    have hvalue := hinside.value
    have hpos' : 0 < fuel := by omega
    have hfuel' : q < fin → fin < q + fuel := by
      intro hq
      rcases hinside.progress with h | h
      · omega
      · rw [Option.getD_some] at h
        omega
    rw [parseIps_succ hp hget]
    rcases wcsnchr_cases hinside.value dash with ⟨hnone, -⟩ | ⟨d, hd, hvd, hdlen, -⟩
    · have hroom : v + min len 46 ≤ t.chars.length + 1 := by omega
      obtain ⟨ip, hip⟩ := inetXton_ok.mpr hroom
      rw [hnone, ok_bind]
      rw [hip, ok_bind]
      exact ih fuel _ hpos' hfuel'
    · rw [IpOk, hd] at hok
      have hroom : v + min (d - v) 46 ≤ t.chars.length + 1 := by omega
      obtain ⟨ip1, hip1⟩ := inetXton_ok.mpr hroom
      obtain ⟨ip2, hip2⟩ := inetXton_ok.mpr hok
      rw [hd, ok_bind]
      dsimp only
      rw [hip1, ok_bind, hip2, ok_bind]
      exact ih fuel _ hpos' hfuel'

end Loops

/-! ### The rule -/

variable (towlower : WChar → WChar)

def Tagged (t : CText) (tag_name : List WChar) (v : Nat × Nat) : Prop :=
  ∃ action, getTagValue t 0 none semicolon = .ok action ∧
    findTagValuePtr t towlower action.next tag_name equals semicolon = .ok (some v)

/-- **A text that can be read:** in the lists of its ports and of its addresses every element is
as it should be. -/
def Readable (t : CText) : Prop :=
  (∀ v, Tagged towlower t (wide ['P', 'o', 'r', 't']) v → Sound t (v.1 + v.2) (PortOk t) v.1) ∧
    ∀ v, Tagged towlower t (wide ['A', 'd', 'd', 'r', 'e', 's', 's']) v →
      Sound t (v.1 + v.2) (IpOk t) v.1

/-- The rule holds the ports of the text: a range for each element of the list, and for the
well-formed elements the range that they name. -/
def StoresPorts (t : CText) (rule rule' : Rule) : Prop :=
  ∀ v, Tagged towlower t (wide ['P', 'o', 'r', 't']) v → ∃ es ranges,
    Elements t (v.1 + v.2) v.1 es ∧ List.Forall₂ Exact es ranges ∧
      rule'.portMap = ranges.foldl (fun m r => ruleAddPortRange m r.first r.last) rule.portMap

/-- **`NetFw_ParseRule` does no harm and stores the ports that the text names, whatever the stack
held before, exactly for the texts that can be read.** -/
theorem parseRule_iff (t : CText) :
    (∀ stale rule, ∃ rule', parseRule t towlower stale rule = .ok rule' ∧
      StoresPorts towlower t rule rule') ↔ Readable towlower t := by
  have hzero : 0 ≤ t.chars.length := Nat.zero_le _
  have haction : ∃ action, getTagValue t 0 none semicolon = .ok action ∧
      ∀ p ∈ action.next, p ≤ t.chars.length := by
    have hnone : ∀ e ∈ (none : Option Nat), e ≤ t.chars.length := nofun
    have hsep : semicolon ≠ 0 := by decide
    rcases getTagValue_cases hzero hnone hsep with
      hnull | ⟨v, len, q, hget, hinside⟩ | ⟨-, hne⟩
    · exact ⟨_, hnull, nofun⟩
    · refine ⟨_, hget, ?_⟩
      rintro p ⟨⟩
      exact hinside.next
    · exact absurd rfl hne
  obtain ⟨action, haction, hnext⟩ := haction
  have htagged : ∀ {tag_name v}, Tagged towlower t tag_name v ↔
      findTagValuePtr t towlower action.next tag_name equals semicolon = .ok (some v) := by
    intro tag_name v
    constructor
    · rintro ⟨action', haction', hv⟩
      obtain rfl := Except.ok.inj (haction.symm.trans haction')
      exact hv
    · exact fun hv => ⟨action, haction, hv⟩
  have heq : equals ≠ 0 := by decide
  have hsep : semicolon ≠ 0 := by decide
  have hfind := fun tag_name => findTagValuePtr_ok towlower hnext tag_name heq hsep
  obtain ⟨ports, hports, hportsin⟩ := hfind (wide ['P', 'o', 'r', 't'])
  obtain ⟨ips, hips, hipsin⟩ := hfind (wide ['A', 'd', 'd', 'r', 'e', 's', 's'])
  obtain ⟨prot, hprot, -⟩ := hfind (wide ['P', 'r', 'o', 't', 'o', 'c', 'o', 'l'])
  have hparse : ∀ stale rule, parseRule t towlower stale rule = (do
      let portMap ← parsePortTag t stale rule.portMap ports
      let ipMap ← parseIpTag t rule.ipMap ips
      return { rule with
        actionBlock := action.value.any fun action_value =>
          !sameN t towlower action_value (wide ['A', 'l', 'l', 'o', 'w']) action.len
        portMap := portMap
        ipMap := ipMap
        protocol := parseProtocol t towlower rule.protocol prot }) := by
    intro stale rule
    rw [parseRule, haction, ok_bind]
    dsimp only
    rw [hports, ok_bind]
    refine congrArg (parsePortTag t stale rule.portMap ports >>= ·) (funext fun portMap => ?_)
    rw [hips, ok_bind]
    refine congrArg (parseIpTag t rule.ipMap ips >>= ·) (funext fun ipMap => ?_)
    rw [hprot, ok_bind]
  constructor
  · intro h
    obtain ⟨rule', hrule', -⟩ := h (fun _ => nines) (allocRule 0)
    rw [hparse] at hrule'
    obtain ⟨portMap, hportMap, hrule'⟩ := bind_ok hrule'
    obtain ⟨ipMap, hipMap, -⟩ := bind_ok hrule'
    refine ⟨fun v hv => ?_, fun v hv => ?_⟩
    · have hv := htagged.mp hv
      obtain rfl := Except.ok.inj (hports.symm.trans hv)
      exact sound_of_parsePorts (hportsin v rfl) hportMap
    · have hv := htagged.mp hv
      obtain rfl := Except.ok.inj (hips.symm.trans hv)
      exact sound_of_parseIps (hipsin v rfl) hipMap
  · intro h stale rule
    have hport : ∃ m, parsePortTag t stale rule.portMap ports = .ok m ∧ ∀ v ∈ ports,
        ∃ es ranges, Elements t (v.1 + v.2) v.1 es ∧ List.Forall₂ Exact es ranges ∧
          m = ranges.foldl (fun m r => ruleAddPortRange m r.first r.last) rule.portMap := by
      cases ports with
      | none => exact ⟨_, rfl, nofun⟩
      | some v =>
        have hin := hportsin v rfl
        obtain ⟨es, ranges, hm, hes, hexact⟩ := parsePorts_of_sound hin
          (h.1 v (htagged.mpr hports)) stale (t.chars.length + 2) 0 rule.portMap (by omega)
          (by omega)
        refine ⟨_, hm, ?_⟩
        rintro _ ⟨⟩
        exact ⟨es, ranges, hes, hexact, rfl⟩
    have hip : ∃ m, parseIpTag t rule.ipMap ips = .ok m := by
      cases ips with
      | none => exact ⟨_, rfl⟩
      | some v =>
        have hin := hipsin v rfl
        exact parseIps_of_sound hin (h.2 v (htagged.mpr hips)) (t.chars.length + 2) rule.ipMap
          (by omega) (by omega)
    obtain ⟨portMap, hportMap, hstores⟩ := hport
    obtain ⟨ipMap, hipMap⟩ := hip
    have hrule := hparse stale rule
    rw [hportMap, ok_bind, hipMap, ok_bind] at hrule
    refine ⟨_, hrule, fun v hv => ?_⟩
    exact hstores v (Except.ok.inj (hports.symm.trans (htagged.mp hv)))

def onePort : CText where
  chars := wide ['A', 'l', 'l', 'o', 'w', ';', 'P', 'o', 'r', 't', '=', '8', '0']
  noNul := by decide
  short := by decide

/-- What the number 8080 leaves in the buffer makes 8080 of the number 80, and digits all through
the buffer make it be read behind its end. -/
theorem parseRule_stale :
    (parseRule onePort id
      (fun _ => ⟨wide ['8', '0', '8', '0'] ++ List.replicate 8 0, rfl⟩) (allocRule 0)).map
        (·.portMap) = .ok (portMap [⟨8080, 8080⟩]) ∧
    parseRule onePort id (fun _ => nines) (allocRule 0) = .error .read := by
  decide

end Sandboxie.NetFw
