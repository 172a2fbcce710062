import EventRules.Proofs.Json.Holding
import Mathlib.Data.List.Forall2

/-!
# Printed JSON is read back

What a value is printed to spells this value, on one line as well as with one item a line. That the text
of a float is read back to the same float is a property of that float.
-/

namespace EventRules.Json
set_option autoImplicit false

open Number

/-! ### Integers -/

theorem le_fold_digits (ds : List Char) (n : Nat) :
    n ≤ ds.foldl (fun n c => 10 * n + digitValue c) n := by
  induction ds generalizing n with
  | nil => exact Nat.le_refl n
  | cons d ds ih => exact Nat.le_trans (by omega) (ih (10 * n + digitValue d))

/-- All digits of a number fit if the number does. -/
theorem fittingDigits_all {ds : List Char} (hdigits : ∀ c ∈ ds, c.isDigit = true) {n : Nat}
    (hfits : ds.foldl (fun n c => 10 * n + digitValue c) n < Nat.pow 2 64) (count : Nat) :
    fittingDigits n count ds = (ds.foldl (fun n c => 10 * n + digitValue c) n, count + ds.length, []) := by
  induction ds generalizing n count with
  | nil => rfl
  | cons d ds ih =>
    obtain ⟨hd, hds⟩ := List.forall_mem_cons.mp hdigits
    have hnext := Nat.lt_of_le_of_lt (le_fold_digits ds (10 * n + digitValue d)) hfits
    rw [fittingDigits, if_pos ⟨hd, hnext⟩, ih hds hfits, List.length_cons, List.foldl_cons,
      Nat.add_assoc, Nat.add_comm 1]

/-- No zero leads the digits of a number of several digits. -/
theorem no_leading_zero {n : Nat} {ds : List Char} (h : Nat.toDigits 10 n = '0' :: ds) : ds = [] := by
  induction n using Nat.strongRecOn generalizing ds with
  | _ n ih =>
    by_cases hsmall : n < 10
    · rw [Nat.toDigits_of_lt_base hsmall] at h
      exact (List.cons.inj h).2.symm
    · rw [Nat.toDigits_of_base_le (by decide) (by omega)] at h
      obtain ⟨d, ds', hdigits, -⟩ := digits_cons (n / 10)
      rw [hdigits] at h
      obtain ⟨rfl, -⟩ := List.cons.inj h
      obtain rfl := ih (n / 10) (by omega) hdigits
      have hvalue := ofDigits_digits (n / 10)
      rw [hdigits] at hvalue
      change 0 = n / 10 at hvalue
      omega

theorem readUnsigned_whole {n : Nat} (hn : n < Nat.pow 2 64) {behind : List Char} (h : Ends behind) :
    readUnsigned (Nat.toDigits 10 n ++ behind) = some ((n, none), behind) := by
  have hdigits := digits_are_digits n
  have hvalue : (Nat.toDigits 10 n).foldl (fun n c => 10 * n + digitValue c) 0 = n := ofDigits_digits n
  have hzero : ∀ ds, Nat.toDigits 10 n = '0' :: ds → ds = [] := fun ds => no_leading_zero
  obtain ⟨d, ds, hcons, -⟩ := digits_cons n
  rw [hcons] at hdigits hvalue hzero ⊢
  have hfits := fittingDigits_all hdigits (hvalue.symm ▸ hn) 0
  rw [hvalue] at hfits
  have hleads : ¬(d = '0' ∧ 1 < (d :: ds).length) := by
    rintro ⟨rfl, hlong⟩
    rw [hzero ds rfl] at hlong
    exact Nat.lt_irrefl 1 hlong
  rw [readUnsigned_eq hdigits fun c hc => (h c hc).1, hfits]
  dsimp only
  rw [Nat.zero_add, if_neg (by simpa using hleads), readScale_plain fun c hc => (h c hc).2.1,
    readExponent_none h]
  simp

theorem digits_spelling {n : Nat} (hn : n < Nat.pow 2 64) :
    Spelling readUnsigned (Nat.toDigits 10 n) (n, none) := by
  refine ⟨readUnsigned_whole hn, ?_, ?_⟩
  · obtain ⟨d, ds, hcons, hd⟩ := digits_cons n
    exact ⟨d, ds, hcons, .digit hd⟩
  · exact fun c hc => not_blank_of_digit (last_of_digits (digits_are_digits n) c hc)

/-- An integer of 64 bits, signed or unsigned, is read from its digits. -/
theorem integer_spelling {n : Int} (hlow : -2 ^ 63 ≤ n) (hhigh : n < 2 ^ 64) :
    Spelling readNumber (numeral n) (.integer n) := by
  cases n with
  | ofNat k =>
    have hfits : k < Nat.pow 2 64 := by
      change (k : Int) < 2 ^ 64 at hhigh
      exact_mod_cast hhigh
    change Spelling readNumber (numeral (k : Int)) (.integer k)
    rw [numeral_of_nat]
    refine ((digits_spelling hfits).signed rfl).plain ?_
    obtain ⟨d, ds, hcons, hd⟩ := digits_cons k
    rw [hcons]
    rintro _ ⟨⟩ rfl
    cases hd
  | negSucc k =>
    have hroom : k + 1 ≤ Nat.pow 2 63 := by
      change -2 ^ 63 ≤ Int.negSucc k at hlow
      rw [Int.negSucc_eq] at hlow
      have hle : (k : Int) + 1 ≤ 2 ^ 63 := by omega
      exact_mod_cast hle
    have hfits : k + 1 < Nat.pow 2 64 := Nat.lt_of_le_of_lt hroom (by decide)
    rw [numeral_of_negative]
    refine ((digits_spelling hfits).signed ?_).negative
    rw [number?, if_neg (by simp), if_neg (by omega)]
    rfl

/-! ### Texts -/

theorem hexValue_digit : ∀ n < 16, hexValue? (hexDigit n) = some n := by decide

/-- A control character is read from the four digits of its number. -/
theorem readCodePoint_control {c : Char} (hc : c.toNat < 32) (behind : List Char) :
    readCodePoint ('0' :: '0' :: hexDigit (c.toNat / 16) :: hexDigit (c.toNat % 16) :: behind) =
      some (c, behind) := by
  have hunit : readUnit ('0' :: '0' :: hexDigit (c.toNat / 16) :: hexDigit (c.toNat % 16) :: behind) =
      some (c.toNat, behind) := by
    have hzero : hexValue? '0' = some 0 := by decide
    simp only [readUnit, hzero, hexValue_digit (c.toNat / 16) (by omega),
      hexValue_digit (c.toNat % 16) (by omega), Option.bind_eq_bind, Option.bind_some, Option.pure_def,
      Option.some.injEq, Prod.mk.injEq, and_true]
    omega
  have hlow : ¬(0xDC00 ≤ c.toNat ∧ c.toNat ≤ 0xDFFF) := by omega
  have hsingle : c.toNat < 0xD800 ∨ 0xDFFF < c.toNat := by omega
  simp [readCodePoint, hunit, hlow, hsingle, Char.ofNat_toNat]

/-- A character is read back from how it stands in a quoted text. -/
theorem escape_exact (c : Char) : ∃ d piece, escape c = d :: piece ∧ d ≠ '"' ∧ Exact readChar (d :: piece) c := by
  unfold escape
  split
  · exact ⟨'\\', ['"'], rfl, by decide, fun _ => rfl⟩
  · exact ⟨'\\', ['\\'], rfl, by decide, fun _ => rfl⟩
  · exact ⟨'\\', ['n'], rfl, by decide, fun _ => rfl⟩
  · exact ⟨'\\', ['r'], rfl, by decide, fun _ => rfl⟩
  · exact ⟨'\\', ['t'], rfl, by decide, fun _ => rfl⟩
  · exact ⟨'\\', ['b'], rfl, by decide, fun _ => rfl⟩
  · exact ⟨'\\', ['f'], rfl, by decide, fun _ => rfl⟩
  · rename_i hquote hescape _ _ _ _ _
    split
    · rename_i hcontrol
      exact ⟨'\\', _, rfl, by decide, readCodePoint_control hcontrol⟩
    · rename_i hcontrol
      refine ⟨c, [], rfl, hquote, fun behind => ?_⟩
      rw [List.cons_append, List.nil_append, readChar_plain hescape, if_neg hcontrol]

theorem quoted_escaped (content : List Char) : Quoted (content.flatMap escape) content := by
  induction content with
  | nil => exact .nil
  | cons c content ih =>
    obtain ⟨d, piece, hescape, hquote, hexact⟩ := escape_exact c
    rw [List.flatMap_cons, hescape]
    exact .cons hexact hquote ih

theorem quote_spelling (s : String) : Spelling readText (quote s).toList s := by
  have hspelling := (quoted_escaped s.toList).spelling
  rw [String.ofList_toList] at hspelling
  rw [quote, String.toList_ofList]
  exact hspelling

/-! ### Lists -/

theorem new_line_blank (depth : Nat) :
    ∀ c ∈ ("\n" ++ String.ofList (List.replicate (2 * depth) ' ')).toList, isBlank c = true := by
  intro c hc
  have hnewline : "\n".toList = ['\n'] := rfl
  simp only [String.toList_append, String.toList_ofList, hnewline, List.mem_append, List.mem_singleton,
    List.mem_replicate] at hc
  rcases hc with rfl | ⟨-, rfl⟩ <;> decide

/-- Items are set off by blanks, commas and blanks. -/
theorem spacing_blank (pretty : Bool) (depth : Nat) :
    (∀ c ∈ (spacing pretty depth).opening.toList, isBlank c = true) ∧
      (∃ gap, (spacing pretty depth).between.toList = ',' :: gap ∧ ∀ c ∈ gap, isBlank c = true) ∧
      (∀ c ∈ (spacing pretty depth).closing.toList, isBlank c = true) ∧
      ∃ gap, (spacing pretty depth).colon.toList = ':' :: gap ∧ ∀ c ∈ gap, isBlank c = true := by
  cases pretty with
  | false =>
    have hspacing : spacing false depth = ⟨"", ",", "", ":"⟩ := rfl
    rw [hspacing]
    exact ⟨nofun, ⟨[], rfl, nofun⟩, nofun, [], rfl, nofun⟩
  | true =>
    have hcolon : ": ".toList = [':', ' '] := rfl
    refine ⟨new_line_blank _, ⟨_, ?_, new_line_blank (depth + 1)⟩, new_line_blank _, [' '], hcolon,
      List.forall_mem_singleton.mpr rfl⟩
    rw [spacing, if_pos rfl, String.toList_append]
    rfl

section Lists

variable {α : Type} {item : Reader α} {close : Char}

theorem listed_enclosed (open_ : String) {texts : List String} {as : List α} (pretty : Bool) (level : Nat)
    (h : List.Forall₂ (fun text a => Padded item text.toList a) texts as) :
    ∃ text, (enclose open_ (String.ofList [close]) (spacing pretty level) texts).toList =
      open_.toList ++ text ∧ Listed item close text as := by
  obtain ⟨hopening, ⟨gap, hbetween, hgap⟩, hclosing, -⟩ := spacing_blank pretty level
  cases texts with
  | nil =>
    cases h
    refine ⟨[close], ?_, .empty (List.forall_mem_nil _)⟩
    simp [enclose]
  | cons text texts =>
    have htexts : List.Forall₂ (Padded item) ((text :: texts).map String.toList) as :=
      List.forall₂_map_left_iff.mpr h
    have hsome : (text :: texts).map String.toList ≠ [] := by simp
    refine ⟨_, ?_, .items (items_of_spaced hopening hgap hclosing htexts hsome)⟩
    rw [enclose, if_neg (by simp)]
    simp only [String.toList_append, String.toList_intercalate, hbetween, String.toList_ofList,
      List.append_assoc]

end Lists

/-! ### Values -/

/-- The text of the float is read back to it. -/
def ReadBack (x : Float) : Prop := read? (Json.float x).compact.toList = some (.float x)

def isFloat (x : Float) : Json → Bool
  | .float y => decide (y = x)
  | _ => false

theorem isFloat_iff {x : Float} {j : Json} : isFloat x j = true ↔ j = .float x := by
  cases j with
  | float y => simp [isFloat]
  | _ => simp [isFloat]

instance (x : Float) : Decidable (ReadBack x) :=
  decidable_of_iff ((read? (Json.float x).compact.toList).any (isFloat x) = true) (by
    simp [ReadBack, Option.any_eq_true, isFloat_iff])

theorem renderItems_eq (pretty : Bool) (level : Nat) (js : List Json) :
    renderItems pretty level js = js.map (renderAt pretty level) := by
  induction js with
  | nil => rfl
  | cons j js ih => rw [renderItems, ih, List.map_cons]

theorem renderMembers_eq (pretty : Bool) (level : Nat) (colon : String) (ms : List (String × Json)) :
    renderMembers pretty level colon ms =
      ms.map fun m => quote m.1 ++ colon ++ renderAt pretty level m.2 := by
  induction ms with
  | nil => rfl
  | cons m ms ih => rw [renderMembers, ih, List.map_cons]

theorem insert_last {key : String} {value : Json} {members : List (String × Json)}
    (h : ∀ m ∈ members, m.1 < key) : insert key value members = members ++ [(key, value)] := by
  induction members with
  | nil => rfl
  | cons m members ih =>
    obtain ⟨hm, hmembers⟩ := List.forall_mem_cons.mp h
    have hdistinct : key ≠ m.1 := by
      rintro rfl
      exact String.lt_irrefl _ hm
    rw [insert, if_neg (String.lt_asymm hm), if_neg hdistinct, ih hmembers, List.cons_append]

/-- Members in the order of their keys are put in this order. -/
theorem ofMembers_ascending {members : List (String × Json)}
    (hkeys : members.Pairwise fun m n => m.1 < n.1) : ofMembers members = .object members := by
  have hinserted (first second : List (String × Json))
      (hkeys : (first ++ second).Pairwise fun m n => m.1 < n.1) :
      second.foldl (fun acc m => insert m.1 m.2 acc) first = first ++ second := by
    induction second generalizing first with
    | nil => rw [List.foldl_nil, List.append_nil]
    | cons m second ih =>
      have hlast : ∀ k ∈ first, k.1 < m.1 :=
        fun k hk => (List.pairwise_append.mp hkeys).2.2 k hk m List.mem_cons_self
      rw [List.append_cons] at hkeys
      rw [List.foldl_cons, insert_last hlast, ih _ hkeys, List.append_assoc, List.singleton_append]
  rw [ofMembers, hinserted [] members hkeys, List.nil_append]

/-- The text of a float is a number wherever it stands. -/
theorem float_padded {text : List Char} {x : Float} (h : read? text = some (.float x)) (depth : Nat) :
    Padded (readValue depth) text (.float x) := by
  obtain ⟨before, piece, behind, htext, hbefore, hbehind, hpiece⟩ := padded_of_read_whole h
  refine ⟨before, piece, behind, htext, hbefore, hbehind, ?_⟩
  have hnumber : readNumber piece = some (.float x, []) := by
    generalize hj : Json.float x = j at hpiece
    cases readsAs_of_read hpiece.alone with
    | number hread => exact hread
    | word hword =>
      subst hj
      simp [words] at hword
    | text _ => cases hj
    | array _ => cases hj
    | object _ => cases hj
  obtain ⟨number, hnumberPiece, hspelling⟩ := readNumber_local hnumber
  rw [List.append_nil] at hnumberPiece
  rw [hnumberPiece]
  exact hspelling.number depth

theorem member_padded {value : Reader Json} {text : List Char} {j : Json} (h : Padded value text j)
    (k : String) {gap : List Char} (hgap : ∀ c ∈ gap, isBlank c = true) :
    Padded (readMember value) ((quote k).toList ++ ':' :: gap ++ text) (k, j) := by
  obtain ⟨before, piece, behind, rfl, hbefore, hbehind, hpiece⟩ := h
  have hbetween : ∀ c ∈ gap ++ before, isBlank c = true := List.forall_mem_append.mpr ⟨hgap, hbefore⟩
  have hmember := (quote_spelling k).member (List.forall_mem_nil _) hbetween hpiece
  have hpadded := hmember.padded.append_blanks hbehind
  simpa using hpadded

/-- The text of a value spells this value. -/
theorem Held.printed {depth : Nat} {j : Json} (h : Held ReadBack depth j) (pretty : Bool) (level : Nat) :
    Padded (readValue depth) (renderAt pretty level j).toList j := by
  induction h generalizing level with
  | null =>
    have hword : ("null", Json.null) ∈ words := by simp [words]
    rw [renderAt]
    exact (Spelling.word hword _).padded
  | boolean b =>
    have hword : (if b then "true" else "false", Json.boolean b) ∈ words := by cases b <;> simp [words]
    rw [renderAt]
    exact (Spelling.word hword _).padded
  | integer hlow hhigh =>
    rw [renderAt]
    exact ((integer_spelling hlow hhigh).number _).padded
  | float hread =>
    rw [ReadBack, compact, renderAt] at hread
    rw [renderAt]
    exact float_padded hread _
  | text s =>
    rw [renderAt]
    exact ((quote_spelling s).ofText _).padded
  | @array depth items _ ih =>
    have hitems : List.Forall₂ (fun text j => Padded (readValue depth) text.toList j)
        (items.map (renderAt pretty (level + 1))) items :=
      List.forall₂_map_left_iff.mpr (List.forall₂_same.mpr fun j hj => ih j hj (level + 1))
    obtain ⟨text, htext, hlisted⟩ := listed_enclosed "[" pretty level hitems
    have harray := (Spelling.array hlisted).padded
    rw [renderAt, renderItems_eq]
    exact htext ▸ harray
  | @object depth members hkeys _ ih =>
    obtain ⟨-, -, -, gap, hcolon, hgap⟩ := spacing_blank pretty level
    have hmembers : List.Forall₂ (fun text m => Padded (readMember (readValue depth)) text.toList m)
        (members.map fun m => quote m.1 ++ (spacing pretty level).colon ++ renderAt pretty (level + 1) m.2)
        members := by
      refine List.forall₂_map_left_iff.mpr (List.forall₂_same.mpr fun m hm => ?_)
      rw [String.toList_append, String.toList_append, hcolon]
      exact member_padded (ih m hm (level + 1)) m.1 hgap
    obtain ⟨text, htext, hlisted⟩ := listed_enclosed "\x7b" pretty level hmembers
    have hobject := (Spelling.object hlisted).padded
    rw [ofMembers_ascending hkeys] at hobject
    rw [renderAt, renderMembers_eq]
    exact htext ▸ hobject

end EventRules.Json
