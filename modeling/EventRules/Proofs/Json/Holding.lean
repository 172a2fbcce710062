import EventRules.Proofs.Json.Values
import EventRules.Proofs.Number.Finiteness

/-!
# What a JSON value holds

A value that was read holds integers of 64 bits and finite floats, and its members stand in the order of
their keys. A float is read as a product or a quotient by powers of ten: what would be too large for a
float is not read, and dividing by ten or more does not make a number larger.
-/

namespace EventRules.Json
set_option autoImplicit false

open Number Float.Model Float.Model.UnpackedFloat

/-! ### Powers of ten -/

theorem log_power_of_ten {k a : Nat} (hbound : k ≤ 31 * a + 28) : (10 ^ k).log2 ≤ 103 * a + 94 := by
  apply log_le_of_le
  calc 10 ^ k ≤ 10 ^ (31 * a + 28) := Nat.pow_le_pow_right (by decide) hbound
    _ = (10 ^ 31) ^ a * 10 ^ 28 := by rw [Nat.pow_add, Nat.pow_mul]
    _ ≤ (2 ^ 103) ^ a * 2 ^ 94 := Nat.mul_le_mul (Nat.pow_le_pow_left (by decide) a) (by decide)
    _ = 2 ^ (103 * a + 94) := by rw [Nat.pow_add, Nat.pow_mul]

/-- A power of ten that is not small is rounded once. -/
theorem large_power_toFloat {k : Nat} (hlarge : 22 < k) (hbound : k ≤ 307) : ∃ x : NormalFloat,
    powerOfTen k = x.toFloat ∧ x.HasSize (nearestPrecise (10 ^ k * 2 ^ 53)) (-53) := by
  have hpos : 1 ≤ 10 ^ k := Nat.pow_pos (by decide)
  have hlog : (10 ^ k).log2 ≤ 103 * 9 + 94 := log_power_of_ten (by omega)
  have hplaces : (10 ^ k * 2 ^ 53).log2 = (10 ^ k).log2 + 53 := log_mul_two_pow (by omega) 53
  obtain ⟨x, hround, -, hsize⟩ := round_normal .positive (m := 10 ^ k * 2 ^ 53) (e := -53 + 0)
    (by omega) (by decide) (by omega)
  refine ⟨x, ?_, hsize⟩
  have hexponent : ¬(2 : Int) ^ Format.binary64.exponentBits < (k : Int) := by
    change ¬(2048 : Int) < k
    omega
  have hplace : ¬(k : Int) < -((2 : Int) ^ Format.binary64.exponentBits + (1 : Nat).log2) := by
    change ¬(k : Int) < -(2048 + 0)
    omega
  have hscaled : Float.Model.UnpackedFloat.ofScientific .binary64 1 k =
      roundWithAccuracy .binary64 .positive (1 <<< 53 * 10 ^ k) (-53 + 0) .exact := by
    rw [Float.Model.UnpackedFloat.ofScientific, dif_neg (by decide), if_neg hexponent, if_neg hplace,
      if_pos (by omega)]
    rfl
  rw [powerOfTen, Float.ofScientific, dif_neg (by omega)]
  change (⟨.pack (Float.Model.UnpackedFloat.ofScientific .binary64 1 k)⟩ : Float) = ⟨.pack x.unpacked⟩
  rw [hscaled, Nat.mul_comm, Nat.shiftLeft_eq, Nat.one_mul, hround]

theorem power_atLeastTwo {k : Nat} (hsome : 1 ≤ k) (hbound : k ≤ 308) :
    AtLeastTwo (powerOfTen k).toModel.unpack := by
  by_cases hsmall : k < 23
  · have hpowers : ∀ k < 23, 1 ≤ k → AtLeastTwo (powerOfTen k).toModel.unpack := by decide +kernel
    exact hpowers k hsmall hsome
  · by_cases hlast : k = 308
    · subst hlast
      decide +kernel
    · obtain ⟨x, hx, hsize⟩ := large_power_toFloat (k := k) (by omega) (by omega)
      have hten : 10 ^ 1 ≤ 10 ^ k := Nat.pow_le_pow_right (by decide) hsome
      have hleast : 2 ^ 54 ≤ nearestPrecise (10 ^ k * 2 ^ 53) := le_nearest (by omega)
      have hexponent := hsize.exponent_ge hleast
      rw [hx, x.unpack_toFloat]
      change 1 ≤ (x.mantissa.log2 : Int) + x.exponent
      rw [x.log_mantissa]
      omega

theorem power_isFinite {k : Nat} (hbound : k ≤ 308) : (powerOfTen k).isFinite = true := by
  by_cases hsome : 1 ≤ k
  · exact (power_atLeastTwo hsome hbound).isFinite
  · obtain rfl : k = 0 := by omega
    decide +kernel

/-! ### Scaling -/

theorem divide_isFinite {x : Float} (hx : x.isFinite = true) {k : Nat} (hk : 1 ≤ k) :
    (divideByTens x k).isFinite = true := by
  have hpower {k : Nat} (hk : 1 ≤ k) (hbound : k ≤ 308) {x : Float} (hx : x.isFinite = true) :
      (x / powerOfTen k).isFinite = true := div_isFinite hx (power_atLeastTwo hk hbound)
  induction k using Nat.strongRecOn generalizing x with
  | _ k ih =>
    rw [divideByTens]
    split
    · rename_i hbound
      exact hpower hk hbound hx
    · split
      · exact hx
      · exact ih (k - 308) (by omega) (hpower (by decide) (by decide) hx) (by omega)

theorem scale_isFinite {x y : Float} (hx : x.isFinite = true) {e : Int}
    (h : scaleByTens? x e = some y) : y.isFinite = true := by
  unfold scaleByTens? at h
  split at h
  · obtain rfl := Option.some.inj h
    exact divide_isFinite hx (by omega)
  · split at h
    · split at h
      · obtain rfl := Option.some.inj h
        exact hx
      · cases h
    · dsimp only at h
      split at h
      · cases h
      · rename_i hinf
        obtain rfl := Option.some.inj h
        exact mul_isFinite hx (power_isFinite (by omega)) (by simpa using hinf)

/-! ### Values that were read -/

/-- A value inside which arrays and objects nest at most `depth` deep: its integers are of 64 bits, its
members stand in the order of their keys, and its floats are as `P` says. -/
inductive Held (P : Float → Prop) : Nat → Json → Prop
  | null {depth : Nat} : Held P depth .null
  | boolean {depth : Nat} (b : Bool) : Held P depth (.boolean b)
  | integer {depth : Nat} {n : Int} (hlow : -2 ^ 63 ≤ n) (hhigh : n < 2 ^ 64) : Held P depth (.integer n)
  | float {depth : Nat} {x : Float} (hx : P x) : Held P depth (.float x)
  | text {depth : Nat} (s : String) : Held P depth (.text s)
  | array {depth : Nat} {items : List Json} (hitems : ∀ j ∈ items, Held P depth j) :
      Held P (depth + 1) (.array items)
  | object {depth : Nat} {members : List (String × Json)}
      (hkeys : members.Pairwise fun m n => m.1 < n.1) (hmembers : ∀ m ∈ members, Held P depth m.2) :
      Held P (depth + 1) (.object members)

/-- A value with the floats and the integers of a text. -/
abbrev Numeric (depth : Nat) (j : Json) : Prop := Held (fun x => x.isFinite = true) depth j

theorem Held.items {P : Float → Prop} {depth : Nat} {items : List Json} (h : Held P depth (.array items)) :
    ∃ inner, ∀ j ∈ items, Held P inner j := by
  cases h with
  | array hitems => exact ⟨_, hitems⟩

theorem fittingDigits_lt {significand : Nat} (h : significand < Nat.pow 2 64) (count : Nat) (cs : List Char) :
    (fittingDigits significand count cs).1 < Nat.pow 2 64 := by
  induction cs generalizing significand count with
  | nil => exact h
  | cons c cs ih =>
    rw [fittingDigits]
    split
    · rename_i hfits
      exact ih hfits.2 _
    · exact h

theorem readScale_lt {significand : Nat} (hfits : significand < Nat.pow 2 64) {long cs rest : List Char}
    {p : Nat × Option Int} (h : readScale significand long cs = some (p, rest)) : p.1 < Nat.pow 2 64 := by
  unfold readScale at h
  split at h
  · dsimp only at h
    split at h
    · cases h
    · obtain ⟨_, -, hp⟩ := Option.map_eq_some_iff.mp h
      obtain ⟨rfl, -⟩ := Prod.mk.inj hp
      exact fittingDigits_lt hfits 0 _
  · obtain ⟨_, -, hp⟩ := Option.map_eq_some_iff.mp h
    obtain ⟨rfl, -⟩ := Prod.mk.inj hp
    exact hfits

theorem readUnsigned_lt {cs rest : List Char} {p : Nat × Option Int}
    (h : readUnsigned cs = some (p, rest)) : p.1 < Nat.pow 2 64 := by
  obtain ⟨d, ds, tail, -, -, -, -, hread⟩ := readUnsigned_cases h
  exact readScale_lt (fittingDigits_lt (by decide) 0 _) hread

theorem number_held {negative : Bool} {significand : Nat} {exponent : Option Int} {j : Json}
    (hfits : significand < Nat.pow 2 64) (h : number? negative significand exponent = some j) (depth : Nat) :
    j.Numeric depth := by
  have hfinite : (Float.ofNat significand).isFinite = true := by
    have hlog : significand.log2 ≤ 1021 := Nat.le_trans (log_le_of_le (n := 64) hfits.le) (by decide)
    exact isFinite_ofInt (n := significand) hlog
  cases exponent with
  | some e =>
    obtain ⟨x, hx, rfl⟩ := Option.map_eq_some_iff.mp h
    have hscaled := scale_isFinite hfinite hx
    cases negative with
    | false => exact .float hscaled
    | true => exact .float (neg_isFinite hscaled)
  | none =>
    rw [number?] at h
    split at h
    · obtain rfl := Option.some.inj h
      exact .integer (by omega) (by exact_mod_cast hfits)
    · split at h
      · obtain rfl := Option.some.inj h
        exact .float (neg_isFinite hfinite)
      · rename_i hroom
        obtain rfl := Option.some.inj h
        have hle : significand ≤ 2 ^ 63 := by
          rw [not_or, not_lt] at hroom
          exact hroom.2
        exact .integer (by omega) (by omega)

theorem readNumber_held {cs rest : List Char} {j : Json} (h : readNumber cs = some (j, rest)) (depth : Nat) :
    j.Numeric depth := by
  have hheld {negative : Bool} {cs : List Char} (h : readSigned negative cs = some (j, rest)) :
      j.Numeric depth := by
    obtain ⟨p, hunsigned, hj⟩ := readSigned_cases h
    exact number_held (readUnsigned_lt hunsigned) hj depth
  obtain ⟨body, -, hsigned⟩ | ⟨-, hsigned⟩ := readNumber_cases h
  · exact hheld hsigned
  · exact hheld hsigned

/-! ### Members in the order of their keys -/

theorem mem_insert {key : String} {value : Json} {members : List (String × Json)} {m : String × Json}
    (h : m ∈ insert key value members) : m = (key, value) ∨ m ∈ members := by
  induction members with
  | nil => exact .inl (List.mem_singleton.mp h)
  | cons first members ih =>
    rw [insert] at h
    split at h
    · exact List.mem_cons.mp h
    · split at h
      · exact (List.mem_cons.mp h).imp_right (List.mem_cons_of_mem _)
      · rcases List.mem_cons.mp h with rfl | hm
        · exact .inr List.mem_cons_self
        · exact (ih hm).imp_right (List.mem_cons_of_mem _)

theorem insert_ascending {key : String} (value : Json) {members : List (String × Json)}
    (h : members.Pairwise fun m n => m.1 < n.1) :
    (insert key value members).Pairwise fun m n => m.1 < n.1 := by
  induction members with
  | nil => exact List.pairwise_singleton _ _
  | cons first members ih =>
    obtain ⟨hfirst, hmembers⟩ := List.pairwise_cons.mp h
    rw [insert]
    split
    · rename_i hless
      refine List.pairwise_cons.mpr ⟨?_, h⟩
      exact List.forall_mem_cons.mpr ⟨hless, fun m hm => String.lt_trans hless (hfirst m hm)⟩
    · split
      · rename_i hsame
        exact List.pairwise_cons.mpr ⟨fun m hm => hsame ▸ hfirst m hm, hmembers⟩
      · rename_i hless hdistinct
        refine List.pairwise_cons.mpr ⟨fun m hm => ?_, ih hmembers⟩
        rcases mem_insert hm with rfl | hm
        · exact lt_of_le_of_ne (not_lt.mp hless) (Ne.symm hdistinct)
        · exact hfirst m hm

theorem ofMembers_held {P : Float → Prop} {depth : Nat} {members : List (String × Json)}
    (h : ∀ m ∈ members, Held P depth m.2) : Held P (depth + 1) (ofMembers members) := by
  have hinserted (first : List (String × Json)) (hkeys : first.Pairwise fun m n => m.1 < n.1)
      (hfirst : ∀ m ∈ first, Held P depth m.2) :
      Held P (depth + 1) (.object (members.foldl (fun acc m => insert m.1 m.2 acc) first)) := by
    induction members generalizing first with
    | nil => exact .object hkeys hfirst
    | cons m members ih =>
      obtain ⟨hm, hmembers⟩ := List.forall_mem_cons.mp h
      refine ih hmembers _ (insert_ascending m.2 hkeys) fun k hk => ?_
      rcases mem_insert hk with rfl | hk
      · exact hm
      · exact hfirst k hk
  exact hinserted [] .nil nofun

/-! ### Whole values -/

theorem Listed.spelled {α : Type} {item : Reader α} {close : Char} {text : List Char} {as : List α}
    (h : Listed item close text as) : ∀ a ∈ as, ∃ piece, Spelling item piece a := by
  cases h with
  | empty _ => exact nofun
  | items hitems =>
    induction hitems with
    | last hitem =>
      obtain ⟨_, piece, _, _, _, _, hpiece⟩ := hitem
      exact List.forall_mem_singleton.mpr ⟨piece, hpiece⟩
    | more hitem _ ih =>
      obtain ⟨_, piece, _, _, _, _, hpiece⟩ := hitem
      exact List.forall_mem_cons.mpr ⟨⟨piece, hpiece⟩, ih⟩

/-- What is read is a value that can be held. -/
theorem readValue_held {depth : Nat} {cs rest : List Char} {j : Json}
    (h : readValue depth cs = some (j, rest)) : j.Numeric depth := by
  induction depth using Nat.strongRecOn generalizing cs rest j with
  | _ depth ih =>
    cases readsAs_of_read h with
    | text _ => exact .text _
    | word hword =>
      simp only [words, List.mem_cons, Prod.mk.injEq, List.not_mem_nil, or_false] at hword
      rcases hword with ⟨-, rfl⟩ | ⟨-, rfl⟩ | ⟨-, rfl⟩
      · exact .null
      · exact .boolean true
      · exact .boolean false
    | @array depth _ _ hread =>
      obtain ⟨text, -, hlisted⟩ := listed_of_read (readValue_local depth) hread
      refine .array fun j hj => ?_
      obtain ⟨piece, hpiece⟩ := hlisted.spelled j hj
      exact ih depth (Nat.lt_succ_self depth) hpiece.alone
    | @object depth _ _ hread =>
      obtain ⟨text, -, hlisted⟩ := listed_of_read (readMember_local (readValue_local depth)) hread
      refine ofMembers_held fun m hm => ?_
      obtain ⟨member, hmember⟩ := hlisted.spelled m hm
      obtain ⟨_, _, _, piece, -, -, -, -, hpiece⟩ := member_pieces (readValue_local depth) hmember.alone
      exact ih depth (Nat.lt_succ_self depth) hpiece.alone
    | number hread => exact readNumber_held hread depth

theorem read_held {s : List Char} {j : Json} (h : read? s = some j) : j.Numeric maxDepth := by
  obtain ⟨_, piece, _, _, _, _, hpiece⟩ := padded_of_read_whole h
  exact readValue_held hpiece.alone

end EventRules.Json
