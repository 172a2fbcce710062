import EventRules.Json.Read
import EventRules.Proofs.Rule.Numerals

/-!
# What a reader of JSON looks at

A reader of a JSON value takes a piece of the text, and it takes the same piece with the same outcome
whatever stands behind it, as long as that does not continue a number. This is shown reader by reader:
what it has read is spelled by a piece, and what a piece spells is read.
-/

namespace EventRules.Json
set_option autoImplicit false

open Number

/-! ### Pieces of a text -/

theorem text_blank_of_blank {c : Char} (h : isBlank c = true) : Text.isBlank c = true := by
  simp only [isBlank, Bool.or_eq_true, beq_iff_eq] at h
  rcases h with ((rfl | rfl) | rfl) | rfl <;> decide

theorem not_blank_of_not_text_blank {c : Char} (h : Text.isBlank c = false) : isBlank c = false := by
  rw [← Bool.not_eq_true]
  intro hblank
  rw [text_blank_of_blank hblank] at h
  cases h

theorem head_append {P : Char → Prop} {first second : List Char} (hfirst : ∀ c ∈ first.head?, P c)
    (hsecond : ∀ c ∈ second.head?, P c) : ∀ c ∈ (first ++ second).head?, P c := by
  cases first with
  | nil => exact hsecond
  | cons c cs => exact hfirst

theorem head_of_append {P : Char → Prop} {first second : List Char}
    (h : ∀ c ∈ (first ++ second).head?, P c) : ∀ c ∈ first.head?, P c := by
  cases first with
  | nil => exact nofun
  | cons c cs => exact h

theorem last_append {P : Char → Prop} {first second : List Char} (hfirst : ∀ c ∈ first.getLast?, P c)
    (hsecond : ∀ c ∈ second.getLast?, P c) : ∀ c ∈ (first ++ second).getLast?, P c := by
  intro c hc
  rw [List.getLast?_append, Option.mem_def, Option.or_eq_some_iff] at hc
  rcases hc with hc | ⟨-, hc⟩
  · exact hsecond c hc
  · exact hfirst c hc

/-- A text up to the first character that fails a test, and the rest. -/
theorem split_while (p : Char → Bool) (cs : List Char) :
    cs = cs.takeWhile p ++ cs.dropWhile p ∧ (∀ c ∈ cs.takeWhile p, p c = true) ∧
      ∀ c ∈ (cs.dropWhile p).head?, p c = false := by
  refine ⟨List.takeWhile_append_dropWhile.symm, ?_, ?_⟩
  · exact fun c hc => List.all_eq_true.mp List.all_takeWhile c hc
  · intro c hc
    have hhead := List.head?_dropWhile_not p cs
    rw [Option.mem_def] at hc
    rw [hc] at hhead
    exact hhead

/-- Nothing that continues a number. -/
def Ends (behind : List Char) : Prop :=
  ∀ c ∈ behind.head?, c.isDigit = false ∧ c ≠ '.' ∧ c ≠ 'e' ∧ c ≠ 'E'

/-- A character that may begin a value: no blank, and no closing bracket. -/
structure Begins (c : Char) : Prop where
  not_blank : Text.isBlank c = false
  not_close : c ≠ ']' ∧ c ≠ '\x7d'

theorem not_blank_of_digit {c : Char} (h : c.isDigit = true) : Text.isBlank c = false :=
  (Lexer.StartsPlain.digit h).not_blank

theorem Begins.digit {c : Char} (h : c.isDigit = true) : Begins c := by
  refine ⟨not_blank_of_digit h, ?_, ?_⟩
  · rintro rfl
    cases h
  · rintro rfl
    cases h

/-- The reader takes this piece wherever it stands, and nothing behind it. -/
structure Spelling {α : Type} (r : Reader α) (piece : List Char) (a : α) : Prop where
  reads : ∀ {behind : List Char}, Ends behind → r (piece ++ behind) = some (a, behind)
  begins : ∃ c cs, piece = c :: cs ∧ Begins c
  ends : ∀ c ∈ piece.getLast?, Text.isBlank c = false

theorem ends_nil : Ends [] := nofun

/-- A piece with nothing behind it is read whole. -/
theorem Spelling.alone {α : Type} {r : Reader α} {piece : List Char} {a : α} (h : Spelling r piece a) :
    r piece = some (a, []) := by
  have hread := h.reads ends_nil
  rwa [List.append_nil] at hread

/-- The reader takes a piece of the text that spells what it gives. -/
def Local {α : Type} (r : Reader α) : Prop :=
  ∀ {cs : List Char} {a : α} {rest : List Char}, r cs = some (a, rest) →
    ∃ piece, cs = piece ++ rest ∧ Spelling r piece a

theorem ends_of_text_blank {behind : List Char} (h : ∀ c ∈ behind.head?, Text.isBlank c = true) :
    Ends behind := by
  intro c hc
  have hblank := h c hc
  refine ⟨?_, ?_, ?_, ?_⟩
  · rw [← Bool.not_eq_true]
    intro hdigit
    rw [not_blank_of_digit hdigit] at hblank
    cases hblank
  · rintro rfl
    exact absurd hblank (by decide)
  · rintro rfl
    exact absurd hblank (by decide)
  · rintro rfl
    exact absurd hblank (by decide)

/-! ### Numbers -/

theorem fittingDigits_append {tail : List Char} (htail : ∀ c ∈ tail.head?, c.isDigit = false)
    (ds : List Char) (significand count : Nat) :
    fittingDigits significand count (ds ++ tail) =
      ((fittingDigits significand count ds).1, (fittingDigits significand count ds).2.1,
        (fittingDigits significand count ds).2.2 ++ tail) := by
  induction ds generalizing significand count with
  | nil =>
    cases tail with
    | nil => rfl
    | cons c cs => simp [fittingDigits, htail c rfl]
  | cons d ds ih =>
    simp only [List.cons_append, fittingDigits]
    split
    · exact ih _ _
    · rfl

theorem fittingDigits_suffix (significand count : Nat) (cs : List Char) :
    (fittingDigits significand count cs).2.2 <:+ cs := by
  induction cs generalizing significand count with
  | nil => exact List.suffix_refl _
  | cons c cs ih =>
    simp only [fittingDigits]
    split
    · exact (ih _ _).trans (List.suffix_cons c cs)
    · exact List.suffix_refl _

theorem last_of_digits {ds : List Char} (h : ∀ c ∈ ds, c.isDigit = true) :
    ∀ c ∈ ds.getLast?, c.isDigit = true :=
  fun c hc => h c (List.mem_of_getLast? hc)

/-- A part of a number that may be empty and otherwise ends in a digit. -/
structure Tail {α : Type} (r : Reader α) (piece : List Char) (a : α) : Prop where
  reads : ∀ {behind : List Char}, Ends behind → r (piece ++ behind) = some (a, behind)
  ends : ∀ c ∈ piece.getLast?, c.isDigit = true

theorem takeSign_append {cs body : List Char} {negative : Bool} (h : takeSign cs = (negative, body)) :
    ∃ sign, cs = sign ++ body ∧
      ∀ more : List Char, (∀ c ∈ more.head?, c.isDigit = true) → takeSign (sign ++ more) = (negative, more) := by
  unfold takeSign at h
  split at h
  · obtain ⟨rfl, rfl⟩ := h
    exact ⟨['-'], rfl, fun _ _ => rfl⟩
  · obtain ⟨rfl, rfl⟩ := h
    exact ⟨['+'], rfl, fun _ _ => rfl⟩
  · obtain ⟨rfl, rfl⟩ := h
    refine ⟨[], rfl, fun more hmore => ?_⟩
    rw [List.nil_append]
    unfold takeSign
    split
    · exact absurd (hmore '-' rfl) (by decide)
    · exact absurd (hmore '+' rfl) (by decide)
    · rfl

theorem readExponent_none {behind : List Char} (h : Ends behind) :
    readExponent behind = some (0, behind) := by
  cases behind with
  | nil => rfl
  | cons c cs =>
    obtain ⟨-, -, hlower, hupper⟩ := h c rfl
    simp [readExponent, hlower, hupper]

/-- Behind the letter and the sign an exponent has one digit at least. -/
theorem readExponent_digits {letter : Char} (hletter : letter = 'e' ∨ letter = 'E') {cs ds behind : List Char}
    {negative : Bool} (hsign : takeSign cs = (negative, ds ++ behind))
    (hdigits : ∀ c ∈ ds, c.isDigit = true) (hbehind : ∀ c ∈ behind.head?, c.isDigit = false) :
    readExponent (letter :: cs) =
      if ds.isEmpty then none else some (if negative then -(ofDigits ds : Int) else ofDigits ds, behind) := by
  obtain ⟨htake, hdrop⟩ := take_dropWhile hdigits hbehind
  simp only [readExponent, if_pos hletter, hsign, htake, hdrop]

theorem readExponent_append {cs rest : List Char} {e : Int} (h : readExponent cs = some (e, rest)) :
    ∃ piece, cs = piece ++ rest ∧ Tail readExponent piece e := by
  have hnone (hzero : readExponent cs = some (0, cs)) :
      ∃ piece, cs = piece ++ rest ∧ Tail readExponent piece e := by
    rw [hzero] at h
    obtain ⟨rfl, rfl⟩ := Prod.mk.inj (Option.some.inj h)
    exact ⟨[], rfl, readExponent_none, nofun⟩
  cases cs with
  | nil => exact hnone rfl
  | cons letter cs =>
    by_cases hletter : letter = 'e' ∨ letter = 'E'
    · obtain ⟨⟨negative, body⟩, hsign⟩ : ∃ signed, takeSign cs = signed := ⟨_, rfl⟩
      obtain ⟨sign, rfl, hsigned⟩ := takeSign_append hsign
      obtain ⟨hbody, hdigits, hbehind⟩ := split_while Char.isDigit body
      generalize body.takeWhile Char.isDigit = ds at hbody hdigits
      generalize body.dropWhile Char.isDigit = behind at hbody hbehind
      subst hbody
      rw [readExponent_digits hletter hsign hdigits hbehind] at h
      split at h
      · cases h
      · rename_i hempty
        have hsome : ds ≠ [] := by simpa using hempty
        obtain ⟨he, rfl⟩ := Prod.mk.inj (Option.some.inj h)
        refine ⟨letter :: sign ++ ds, by simp, ?_, ?_⟩
        · intro other hends
          have hhead : ∀ d ∈ (ds ++ other).head?, d.isDigit = true := by
            rw [List.head?_append_of_ne_nil _ hsome]
            exact fun d hd => hdigits d (List.mem_of_mem_head? hd)
          rw [List.append_assoc, List.cons_append, readExponent_digits hletter (hsigned _ hhead) hdigits
            fun d hd => (hends d hd).1, if_neg hempty, he]
        · rw [List.getLast?_append_of_ne_nil _ hsome]
          exact last_of_digits hdigits
    · exact hnone (by simp [readExponent, hletter])

/-- What stands behind the whole digits of a number, of which the last ones may not have fitted. -/
def readScale (significand : Nat) (long : List Char) : Reader (Nat × Option Int) := fun cs =>
  match cs with
  | '.' :: places =>
    let fitting := fittingDigits significand 0 places
    if fitting.2.1 = 0 ∧ !fitting.2.2.head?.any Char.isDigit then none
    else
      (readExponent (fitting.2.2.dropWhile Char.isDigit)).map fun (e, rest) =>
        ((fitting.1, some (long.length - fitting.2.1 + e)), rest)
  | _ =>
    (readExponent cs).map fun (e, rest) =>
      ((significand, if long.isEmpty ∧ rest.length = cs.length then none else some (long.length + e)), rest)

theorem readScale_plain {significand : Nat} {long tail : List Char} (htail : ∀ c ∈ tail.head?, c ≠ '.') :
    readScale significand long tail =
      (readExponent tail).map fun (e, rest) =>
        ((significand, if long.isEmpty ∧ rest.length = tail.length then none else some (long.length + e)),
          rest) := by
  unfold readScale
  split
  · exact absurd rfl (htail '.' rfl)
  · rfl

theorem readUnsigned_eq {d : Char} {ds tail : List Char} (hdigits : ∀ c ∈ d :: ds, c.isDigit = true)
    (htail : ∀ c ∈ tail.head?, c.isDigit = false) :
    readUnsigned (d :: ds ++ tail) =
      let fitting := fittingDigits 0 0 (d :: ds)
      if fitting.2.1 = 0 ∨ (d = '0' ∧ 1 < fitting.2.1) then none
      else readScale fitting.1 fitting.2.2 tail := by
  obtain ⟨⟨significand, count, long⟩, hfitting⟩ : ∃ fitting, fittingDigits 0 0 (d :: ds) = fitting :=
    ⟨_, rfl⟩
  have hlong : ∀ c ∈ long, c.isDigit = true := by
    intro c hc
    have hsuffix := fittingDigits_suffix 0 0 (d :: ds)
    rw [hfitting] at hsuffix
    exact hdigits c (hsuffix.subset hc)
  obtain ⟨htake, hdrop⟩ := take_dropWhile hlong htail
  have happend : fittingDigits 0 0 (d :: (ds ++ tail)) = (significand, count, long ++ tail) := by
    rw [← List.cons_append, fittingDigits_append htail, hfitting]
  unfold readUnsigned
  simp only [List.cons_append, happend, hfitting, htake, hdrop, List.head?_cons, Option.some.injEq]
  by_cases hcount : count = 0
  · simp [hcount]
  · by_cases hzero : d = '0' ∧ 1 < count
    · simp [hzero]
    · simp only [hcount, hzero, or_self, if_false]
      split
      · simp only [readScale]
        split
        · rfl
        · cases readExponent _ with
          | none => rfl
          | some found => rfl
      · rename_i hplain
        rw [readScale_plain fun c hc hpoint => ?_]
        · cases readExponent tail with
          | none => rfl
          | some found =>
            simp only [Option.bind_eq_bind, Option.bind_some, Option.map_some]
            split
            · rfl
            · rfl
        · obtain ⟨places, rfl⟩ := List.head?_eq_some_iff.mp hc
          exact hplain places (by rw [hpoint])

theorem readUnsigned_none {cs : List Char} (h : ∀ c ∈ cs.head?, c.isDigit = false) :
    readUnsigned cs = none := by
  have hfitting : fittingDigits 0 0 cs = (0, 0, cs) := by
    have happend := fittingDigits_append h [] 0 0
    simpa [fittingDigits] using happend
  simp [readUnsigned, hfitting]

theorem readScale_point {significand : Nat} {long ds tail : List Char}
    (hdigits : ∀ c ∈ ds, c.isDigit = true) (htail : ∀ c ∈ tail.head?, c.isDigit = false) :
    readScale significand long ('.' :: (ds ++ tail)) =
      let fitting := fittingDigits significand 0 ds
      if fitting.2.1 = 0 ∧ !fitting.2.2.head?.any Char.isDigit then none
      else
        (readExponent tail).map fun (e, rest) =>
          ((fitting.1, some (long.length - fitting.2.1 + e)), rest) := by
  have hbehind : ∀ c ∈ (fittingDigits significand 0 ds).2.2, c.isDigit = true :=
    fun c hc => hdigits c ((fittingDigits_suffix significand 0 ds).subset hc)
  obtain ⟨-, hdrop⟩ := take_dropWhile hbehind htail
  have hhead : ((fittingDigits significand 0 ds).2.2 ++ tail).head?.any Char.isDigit =
      (fittingDigits significand 0 ds).2.2.head?.any Char.isDigit := by
    cases (fittingDigits significand 0 ds).2.2 with
    | nil =>
      cases tail with
      | nil => rfl
      | cons c cs => exact htail c rfl
    | cons c cs => rfl
  simp only [readScale, fittingDigits_append htail, hdrop, hhead]

theorem readScale_append {significand : Nat} {long cs rest : List Char} {p : Nat × Option Int}
    (h : readScale significand long cs = some (p, rest)) :
    ∃ piece, cs = piece ++ rest ∧ Tail (readScale significand long) piece p := by
  by_cases hpoint : cs.head? = some '.'
  · obtain ⟨places, rfl⟩ := List.head?_eq_some_iff.mp hpoint
    obtain ⟨hplaces, hdigits, htail⟩ := split_while Char.isDigit places
    rw [hplaces, readScale_point hdigits htail] at h
    dsimp only at h
    split at h
    · cases h
    · rename_i hfits
      obtain ⟨⟨e, rest'⟩, hexponent, hp⟩ := Option.map_eq_some_iff.mp h
      obtain ⟨rfl, rfl⟩ := Prod.mk.inj hp
      obtain ⟨piece, hpiece, hexponent⟩ := readExponent_append hexponent
      refine ⟨'.' :: (places.takeWhile Char.isDigit ++ piece), ?_, ?_, ?_⟩
      · rw [List.cons_append, List.append_assoc, ← hpiece, ← hplaces]
      · intro behind hends
        rw [List.cons_append, List.append_assoc, readScale_point hdigits ?_, if_neg hfits,
          hexponent.reads hends]
        · rfl
        · rw [hpiece] at htail
          exact head_append (head_of_append htail) fun c hc => (hends c hc).1
      · have hne : places.takeWhile Char.isDigit ≠ [] := by
          intro hnil
          rw [hnil] at hfits
          exact hfits ⟨rfl, rfl⟩
        rw [← List.cons_append]
        refine last_append ?_ hexponent.ends
        rw [List.getLast?_cons_of_ne_nil hne]
        exact last_of_digits hdigits
  · have hplain : ∀ c ∈ cs.head?, c ≠ '.' := by
      rintro c hc rfl
      exact hpoint hc
    rw [readScale_plain hplain] at h
    obtain ⟨⟨e, rest'⟩, hexponent, hp⟩ := Option.map_eq_some_iff.mp h
    obtain ⟨rfl, rfl⟩ := Prod.mk.inj hp
    obtain ⟨piece, rfl, hpiece⟩ := readExponent_append hexponent
    refine ⟨piece, rfl, ?_, hpiece.ends⟩
    intro behind hends
    rw [readScale_plain (head_append (head_of_append hplain) fun c hc => (hends c hc).2.1),
      hpiece.reads hends]
    simp

/-- A number that is read begins with its whole digits, and what stands behind them is its scale. -/
theorem readUnsigned_cases {cs rest : List Char} {p : Nat × Option Int}
    (h : readUnsigned cs = some (p, rest)) :
    ∃ d ds tail, cs = d :: ds ++ tail ∧ (∀ c ∈ d :: ds, c.isDigit = true) ∧
      (∀ c ∈ tail.head?, c.isDigit = false) ∧
      ¬((fittingDigits 0 0 (d :: ds)).2.1 = 0 ∨ d = '0' ∧ 1 < (fittingDigits 0 0 (d :: ds)).2.1) ∧
      readScale (fittingDigits 0 0 (d :: ds)).1 (fittingDigits 0 0 (d :: ds)).2.2 tail = some (p, rest) := by
  obtain ⟨hcs, hdigits, htail⟩ := split_while Char.isDigit cs
  cases hwhole : cs.takeWhile Char.isDigit with
  | nil =>
    rw [hwhole, List.nil_append] at hcs
    rw [← hcs] at htail
    rw [readUnsigned_none htail] at h
    cases h
  | cons d ds =>
    rw [hwhole] at hcs hdigits
    rw [hcs, readUnsigned_eq hdigits htail] at h
    dsimp only at h
    split at h
    · cases h
    · rename_i hfits
      exact ⟨d, ds, _, hcs, hdigits, htail, hfits, h⟩

theorem readUnsigned_local : Local readUnsigned := by
  intro cs p rest h
  obtain ⟨d, ds, tail, rfl, hdigits, htail, hfits, hread⟩ := readUnsigned_cases h
  obtain ⟨piece, rfl, hscale⟩ := readScale_append hread
  refine ⟨d :: ds ++ piece, by simp, ?_, ⟨d, ds ++ piece, rfl, .digit (hdigits d List.mem_cons_self)⟩, ?_⟩
  · intro behind hends
    rw [List.append_assoc,
      readUnsigned_eq hdigits (head_append (head_of_append htail) fun c hc => (hends c hc).1)]
    dsimp only
    rw [if_neg hfits, hscale.reads hends]
  · intro c hc
    exact not_blank_of_digit (last_append (last_of_digits hdigits) hscale.ends c hc)

/-- The number of a significand and a power of ten, which an integer does not have. -/
def number? (negative : Bool) (significand : Nat) : Option Int → Option Json
  | some e =>
    (scaleByTens? (Float.ofNat significand) e).map fun x => .float (if negative then -x else x)
  | none =>
    if !negative then some (.integer significand)
    else if significand = 0 ∨ Nat.pow 2 63 < significand then some (.float (-(Float.ofNat significand)))
    else some (.integer (-(significand : Int)))

/-- The number that a reader of unsigned ones gives, behind a sign that is passed already. -/
def readSigned (negative : Bool) : Reader Json := fun cs =>
  (readUnsigned cs).bind fun (p, rest) => (number? negative p.1 p.2).map (·, rest)

theorem readNumber_negative (cs : List Char) : readNumber ('-' :: cs) = readSigned true cs := by
  simp only [readNumber, readSigned, Option.bind_eq_bind]
  congr 1
  funext ⟨⟨significand, exponent⟩, rest⟩
  cases exponent with
  | some e => cases hscaled : scaleByTens? (Float.ofNat significand) e <;> simp [number?, hscaled]
  | none =>
    simp only [number?, Bool.not_true, Bool.false_eq_true, if_false]
    split
    · rfl
    · rfl

theorem readNumber_plain {cs : List Char} (h : ∀ c ∈ cs.head?, c ≠ '-') :
    readNumber cs = readSigned false cs := by
  unfold readNumber
  split
  rename_i hmatch
  split at hmatch
  · exact absurd rfl (h '-' rfl)
  · obtain ⟨rfl, rfl⟩ := Prod.mk.inj hmatch
    simp only [readSigned, Option.bind_eq_bind]
    congr 1
    funext ⟨⟨significand, exponent⟩, rest⟩
    cases exponent with
    | some e => cases hscaled : scaleByTens? (Float.ofNat significand) e <;> simp [number?, hscaled]
    | none => simp [number?]

theorem Spelling.signed {negative : Bool} {piece : List Char} {p : Nat × Option Int} {j : Json}
    (h : Spelling readUnsigned piece p) (hj : number? negative p.1 p.2 = some j) :
    Spelling (readSigned negative) piece j := by
  refine ⟨?_, h.begins, h.ends⟩
  intro behind hends
  simp only [readSigned, h.reads hends, Option.bind_some, hj, Option.map_some]

theorem Spelling.negative {piece : List Char} {j : Json} (h : Spelling (readSigned true) piece j) :
    Spelling readNumber ('-' :: piece) j := by
  refine ⟨?_, ⟨'-', piece, rfl, by decide, by decide⟩, ?_⟩
  · intro behind hends
    rw [List.cons_append, readNumber_negative, h.reads hends]
  · obtain ⟨c, cs, rfl, -⟩ := h.begins
    rw [List.getLast?_cons_of_ne_nil (List.cons_ne_nil c cs)]
    exact h.ends

theorem Spelling.plain {piece : List Char} {j : Json} (h : Spelling (readSigned false) piece j)
    (hfirst : ∀ c ∈ piece.head?, c ≠ '-') : Spelling readNumber piece j := by
  refine ⟨?_, h.begins, h.ends⟩
  intro behind hends
  have hplain : ∀ c ∈ (piece ++ behind).head?, c ≠ '-' := by
    obtain ⟨c, cs, rfl, -⟩ := h.begins
    exact hfirst
  rw [readNumber_plain hplain, h.reads hends]

theorem readSigned_cases {negative : Bool} {cs rest : List Char} {j : Json}
    (h : readSigned negative cs = some (j, rest)) :
    ∃ p, readUnsigned cs = some (p, rest) ∧ number? negative p.1 p.2 = some j := by
  obtain ⟨⟨p, rest'⟩, hunsigned, hnumber⟩ := Option.bind_eq_some_iff.mp h
  obtain ⟨j', hj, hpair⟩ := Option.map_eq_some_iff.mp hnumber
  obtain ⟨rfl, rfl⟩ := Prod.mk.inj hpair
  exact ⟨p, hunsigned, hj⟩

theorem readNumber_cases {cs rest : List Char} {j : Json} (h : readNumber cs = some (j, rest)) :
    (∃ body, cs = '-' :: body ∧ readSigned true body = some (j, rest)) ∨
      (∀ c ∈ cs.head?, c ≠ '-') ∧ readSigned false cs = some (j, rest) := by
  by_cases hminus : cs.head? = some '-'
  · obtain ⟨body, rfl⟩ := List.head?_eq_some_iff.mp hminus
    rw [readNumber_negative] at h
    exact .inl ⟨body, rfl, h⟩
  · have hplain : ∀ c ∈ cs.head?, c ≠ '-' := by
      rintro c hc rfl
      exact hminus hc
    rw [readNumber_plain hplain] at h
    exact .inr ⟨hplain, h⟩

theorem readSigned_local (negative : Bool) : Local (readSigned negative) := by
  intro cs j rest h
  obtain ⟨p, hunsigned, hj⟩ := readSigned_cases h
  obtain ⟨piece, hcs, hpiece⟩ := readUnsigned_local hunsigned
  exact ⟨piece, hcs, hpiece.signed hj⟩

theorem readNumber_local : Local readNumber := by
  intro cs j rest h
  obtain ⟨body, rfl, hsigned⟩ | ⟨hplain, hsigned⟩ := readNumber_cases h
  · obtain ⟨piece, rfl, hpiece⟩ := readSigned_local true hsigned
    exact ⟨'-' :: piece, rfl, hpiece.negative⟩
  · obtain ⟨piece, rfl, hpiece⟩ := readSigned_local false hsigned
    exact ⟨piece, rfl, hpiece.plain (head_of_append hplain)⟩

/-! ### Texts -/

/-- The reader takes this piece wherever it stands, whatever stands behind it. -/
def Exact {α : Type} (r : Reader α) (piece : List Char) (a : α) : Prop :=
  ∀ behind : List Char, r (piece ++ behind) = some (a, behind)

theorem readUnit_exact {cs rest : List Char} {n : Nat} (h : readUnit cs = some (n, rest)) :
    ∃ piece, cs = piece ++ rest ∧ Exact readUnit piece n := by
  unfold readUnit at h
  split at h
  · rename_i a b c d _
    obtain ⟨x, hx, h⟩ := Option.bind_eq_some_iff.mp h
    obtain ⟨y, hy, h⟩ := Option.bind_eq_some_iff.mp h
    obtain ⟨z, hz, h⟩ := Option.bind_eq_some_iff.mp h
    obtain ⟨w, hw, h⟩ := Option.bind_eq_some_iff.mp h
    obtain ⟨rfl, rfl⟩ := Prod.mk.inj (Option.some.inj h)
    refine ⟨[a, b, c, d], rfl, fun behind => ?_⟩
    simp [readUnit, hx, hy, hz, hw]
  · cases h

theorem readCodePoint_exact {cs rest : List Char} {c : Char} (h : readCodePoint cs = some (c, rest)) :
    ∃ piece, cs = piece ++ rest ∧ Exact readCodePoint piece c := by
  obtain ⟨⟨n, behindUnit⟩, hunit, hpoint⟩ := Option.bind_eq_some_iff.mp h
  obtain ⟨piece, rfl, hpiece⟩ := readUnit_exact hunit
  dsimp only at hpoint
  split at hpoint
  · cases hpoint
  rename_i hlow
  split at hpoint
  · rename_i hsingle
    obtain ⟨rfl, rfl⟩ := Prod.mk.inj (Option.some.inj hpoint)
    refine ⟨piece, rfl, fun behind => ?_⟩
    simp [readCodePoint, hpiece behind, hlow, hsingle]
  rename_i hpair
  split at hpoint
  · rename_i cs
    obtain ⟨⟨low, behindPair⟩, hlower, hpoint⟩ := Option.bind_eq_some_iff.mp hpoint
    dsimp only at hpoint
    split at hpoint
    · cases hpoint
    rename_i hrange
    obtain ⟨rfl, rfl⟩ := Prod.mk.inj (Option.some.inj hpoint)
    obtain ⟨second, rfl, hsecond⟩ := readUnit_exact hlower
    refine ⟨piece ++ '\\' :: 'u' :: second, by simp, fun behind => ?_⟩
    have htext : piece ++ '\\' :: 'u' :: second ++ behind = piece ++ '\\' :: 'u' :: (second ++ behind) := by
      simp
    simp [readCodePoint, htext, hpiece ('\\' :: 'u' :: (second ++ behind)), hlow, hpair, hsecond behind, hrange]
  · cases hpoint

theorem readChar_escaped {e : Char} (he : e ≠ 'u') (cs : List Char) :
    readChar ('\\' :: e :: cs) = (unescape? e).map fun c => (c, cs) := by
  unfold readChar
  split
  · rename_i heq
    exact absurd (List.cons.inj (List.cons.inj heq).2).1 he
  · rename_i heq
    obtain ⟨rfl, rfl⟩ := List.cons.inj (List.cons.inj heq).2
    rfl
  · rename_i hescape heq
    obtain ⟨rfl, rfl⟩ := List.cons.inj heq
    exact absurd rfl (hescape e cs rfl)
  · rename_i heq
    cases heq

theorem readChar_plain {c : Char} (hc : c ≠ '\\') (cs : List Char) :
    readChar (c :: cs) = if c.toNat < 32 then none else some (c, cs) := by
  unfold readChar
  split
  · rename_i heq
    exact absurd (List.cons.inj heq).1 hc
  · rename_i heq
    exact absurd (List.cons.inj heq).1 hc
  · rename_i heq
    obtain ⟨rfl, rfl⟩ := List.cons.inj heq
    simp [hc]
  · rename_i heq
    cases heq

/-- One character is read from one at least. -/
theorem readChar_exact {cs rest : List Char} {c : Char} (h : readChar cs = some (c, rest)) :
    ∃ d piece, cs = d :: piece ++ rest ∧ Exact readChar (d :: piece) c := by
  cases cs with
  | nil => cases h
  | cons d cs =>
    by_cases hescape : d = '\\'
    · subst hescape
      cases cs with
      | nil => cases h
      | cons e cs =>
        by_cases hunit : e = 'u'
        · subst hunit
          obtain ⟨piece, rfl, hpiece⟩ := readCodePoint_exact h
          exact ⟨'\\', 'u' :: piece, rfl, hpiece⟩
        · rw [readChar_escaped hunit] at h
          obtain ⟨d, hd, hpair⟩ := Option.map_eq_some_iff.mp h
          obtain ⟨rfl, rfl⟩ := Prod.mk.inj hpair
          refine ⟨'\\', [e], rfl, fun behind => ?_⟩
          simp [readChar_escaped hunit, hd]
    · rw [readChar_plain hescape] at h
      split at h
      · cases h
      · rename_i hcontrol
        obtain ⟨rfl, rfl⟩ := Prod.mk.inj (Option.some.inj h)
        refine ⟨d, [], rfl, fun behind => ?_⟩
        simp [readChar_plain hescape, hcontrol]

/-- Pieces of single characters, none of them the closing quote. -/
inductive Quoted : List Char → List Char → Prop
  | nil : Quoted [] []
  | cons {d c : Char} {piece text content : List Char} (hpiece : Exact readChar (d :: piece) c)
      (hquote : d ≠ '"') (htext : Quoted text content) : Quoted (d :: piece ++ text) (c :: content)

theorem readQuoted_cons {d : Char} (hd : d ≠ '"') (n : Nat) (cs : List Char) :
    readQuoted (n + 1) (d :: cs) =
      (readChar (d :: cs)).bind fun (c, rest) =>
        (readQuoted n rest).map fun (others, rest) => (c :: others, rest) := by
  rw [readQuoted]
  · simp only [Option.bind_eq_bind, Option.pure_def, Option.map_eq_bind]
    rfl
  · rintro cs heq
    exact hd (List.cons.inj heq).1

theorem Quoted.reads {text content : List Char} (h : Quoted text content) {n : Nat}
    (hn : text.length ≤ n) (behind : List Char) :
    readQuoted n (text ++ '"' :: behind) = some (content, behind) := by
  induction h generalizing n with
  | nil => simp [readQuoted]
  | @cons d c piece text content hpiece hquote _ ih =>
    simp only [List.length_append, List.length_cons] at hn
    obtain ⟨n, rfl⟩ := Nat.exists_eq_succ_of_ne_zero (show n ≠ 0 by omega)
    have hchar := hpiece (text ++ '"' :: behind)
    simp only [List.cons_append, List.append_assoc] at hchar ⊢
    rw [Nat.succ_eq_add_one, readQuoted_cons hquote, hchar]
    simp only [Option.bind_some, ih (show text.length ≤ n by omega), Option.map_some]

theorem Quoted.spelling {text content : List Char} (h : Quoted text content) :
    Spelling readText ('"' :: text ++ ['"']) (String.ofList content) := by
  refine ⟨?_, ⟨'"', text ++ ['"'], rfl, by decide, by decide⟩, ?_⟩
  · intro behind _
    have htext : '"' :: text ++ ['"'] ++ behind = '"' :: (text ++ '"' :: behind) := by simp
    rw [htext, readText, h.reads (by simp)]
    rfl
  · intro c hc
    rw [List.getLast?_concat] at hc
    cases hc
    decide

theorem quoted_of_read {n : Nat} {cs content rest : List Char} (h : readQuoted n cs = some (content, rest)) :
    ∃ text, cs = text ++ '"' :: rest ∧ Quoted text content := by
  fun_induction readQuoted n cs generalizing content with
  | case1 _ cs =>
    obtain ⟨rfl, rfl⟩ := Prod.mk.inj (Option.some.inj h)
    exact ⟨[], rfl, .nil⟩
  | case2 => cases h
  | case3 n cs hquote ih =>
    obtain ⟨⟨c, behindChar⟩, hchar, h⟩ := Option.bind_eq_some_iff.mp h
    obtain ⟨⟨others, rest'⟩, hothers, h⟩ := Option.bind_eq_some_iff.mp h
    obtain ⟨rfl, rfl⟩ := Prod.mk.inj (Option.some.inj h)
    obtain ⟨d, piece, rfl, hpiece⟩ := readChar_exact hchar
    obtain ⟨text, rfl, htext⟩ := ih _ hothers
    refine ⟨d :: piece ++ text, by simp, .cons hpiece ?_ htext⟩
    rintro rfl
    exact hquote _ rfl

theorem readText_local : Local readText := by
  intro cs s rest h
  unfold readText at h
  split at h
  · rename_i cs
    obtain ⟨⟨content, rest'⟩, hquoted, hpair⟩ := Option.map_eq_some_iff.mp h
    obtain ⟨rfl, rfl⟩ := Prod.mk.inj hpair
    obtain ⟨text, rfl, htext⟩ := quoted_of_read hquoted
    exact ⟨'"' :: text ++ ['"'], by simp, htext.spelling⟩
  · cases h

end EventRules.Json
