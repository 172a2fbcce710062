import Mathlib.Data.List.Forall2
import EventRules.Lowering.Basic

/-!
# What lowering adds

Lowering appends fragments, each under a name with a number that was drawn meanwhile, and no number is
used twice. A name tells its number, so the names of all fragments differ.
-/

namespace EventRules
set_option autoImplicit false

namespace Lowering

/-! ### Numbers in names -/

theorem numbered_toList (stem : String) (k : Nat) :
    (s!"{stem}_{k}").toList = stem.toList ++ '_' :: Nat.toDigits 10 k := by
  have h : s!"{stem}_{k}" = stem ++ "_" ++ k.repr := rfl
  rw [h, String.toList_append, String.toList_append, Nat.toList_repr, List.append_assoc]
  rfl

theorem behind_last_separator {as bs ds es : List Char} (hd : '_' ∉ ds) (he : '_' ∉ es)
    (h : as ++ '_' :: ds = bs ++ '_' :: es) : ds = es := by
  have hcut : ∀ (as ds : List Char), '_' ∉ ds →
      (as ++ '_' :: ds).reverse.takeWhile (fun c => c != '_') = ds.reverse := by
    intro as ds hd
    have hall : ∀ c ∈ ds.reverse, (c != '_') = true := by
      intro c hc
      have hne : c ≠ '_' := fun h => hd (h ▸ List.mem_reverse.mp hc)
      simpa using hne
    rw [List.reverse_append, List.reverse_cons, List.append_assoc, List.takeWhile_append_of_pos hall]
    simp
  have h := congrArg (fun cs : List Char => cs.reverse.takeWhile (fun c => c != '_')) h
  simp only [hcut _ _ hd, hcut _ _ he] at h
  exact List.reverse_injective h

theorem number_eq {stem other : String} {k l : Nat} (h : s!"{stem}_{k}" = s!"{other}_{l}") : k = l := by
  have h := congrArg String.toList h
  rw [numbered_toList, numbered_toList] at h
  have hdigits := behind_last_separator Nat.underscore_not_in_toDigits Nat.underscore_not_in_toDigits h
  have h := congrArg (fun cs => Nat.ofDigitChars 10 cs 0) hdigits
  simpa only [Nat.ofDigitChars_ten_toDigits] using h

/-- The name of the fragment ends with the number. -/
def Numbered (f : Fragment) (k : Nat) : Prop := ∃ stem : String, f.name = s!"{stem}_{k}"

theorem names_nodup {fragments : List Fragment} {numbers : List Nat}
    (h : List.Forall₂ Numbered fragments numbers) (hn : numbers.Nodup) :
    (fragments.map Fragment.name).Nodup := by
  induction h with
  | nil => exact List.nodup_nil
  | @cons f k fs ks hf hfs ih =>
    rw [List.nodup_cons] at hn
    rw [List.map_cons, List.nodup_cons]
    refine ⟨fun hmem => ?_, ih hn.2⟩
    obtain ⟨g, hg, hname⟩ := List.mem_map.mp hmem
    obtain ⟨l, hl, stem', hg⟩ : ∃ l ∈ ks, Numbered g l := by
      clear ih hn hmem
      induction hfs with
      | nil => simp at hg
      | cons hab _ ih =>
        rcases List.mem_cons.mp hg with rfl | hg
        · exact ⟨_, List.mem_cons_self, hab⟩
        · obtain ⟨l, hl, hnum⟩ := ih hg
          exact ⟨l, List.mem_cons_of_mem _ hl, hnum⟩
    obtain ⟨stem, hf⟩ := hf
    have hkl : k = l := number_eq (hf.symm.trans (hname.symm.trans hg))
    exact hn.1 (hkl ▸ hl)

/-! ### Growth -/

/-- The output `o'` is `o` with fragments under names whose numbers were drawn between them. -/
def Grows (o o' : Output) : Prop :=
  o.issued ≤ o'.issued ∧ ∃ added numbers, o'.fragments = o.fragments ++ added ∧
    List.Forall₂ Numbered added numbers ∧ numbers.Nodup ∧
      ∀ k ∈ numbers, o.issued < k ∧ k ≤ o'.issued

namespace Grows

variable {o o' o'' : Output}

theorem of_same (hf : o'.fragments = o.fragments) (hi : o'.issued = o.issued) : Grows o o' := by
  refine ⟨Nat.le_of_eq hi.symm, [], [], ?_, .nil, List.nodup_nil, ?_⟩
  · rw [hf, List.append_nil]
  · intro k hk
    simp at hk

theorem refl (o : Output) : Grows o o := of_same rfl rfl

theorem keeps_fragments (h : Grows o o') : o.fragments <+: o'.fragments := by
  obtain ⟨-, added, numbers, hf, -⟩ := h
  exact ⟨added, hf.symm⟩

theorem trans (h : Grows o o') (h' : Grows o' o'') : Grows o o'' := by
  obtain ⟨hi, added, numbers, hf, hnum, hnodup, hrange⟩ := h
  obtain ⟨hi', added', numbers', hf', hnum', hnodup', hrange'⟩ := h'
  refine ⟨Nat.le_trans hi hi', added ++ added', numbers ++ numbers', ?_, ?_, ?_, ?_⟩
  · rw [hf', hf, List.append_assoc]
  · exact List.rel_append hnum hnum'
  · rw [List.nodup_append]
    refine ⟨hnodup, hnodup', fun k hk l hl hkl => ?_⟩
    have := hrange k hk
    have := hrange' l hl
    omega
  · intro k hk
    rcases List.mem_append.mp hk with hk | hk
    · have := hrange k hk
      omega
    · have := hrange' k hk
      omega

theorem draw (o : Output) : Grows o { o with issued := o.issued + 1 } := by
  refine ⟨Nat.le_succ _, [], [], (List.append_nil _).symm, .nil, List.nodup_nil, ?_⟩
  intro k hk
  simp at hk

theorem emit {stem : String} {body : FragmentBody}
    (h : Grows { o with issued := o.issued + 1 } o') :
    Grows o { o' with fragments := o'.fragments ++ [⟨s!"{stem}_{o.issued + 1}", body⟩] } := by
  obtain ⟨hi, added, numbers, hf, hnum, hnodup, hrange⟩ := h
  simp only at hi hf hrange
  refine ⟨by simp only; omega, added ++ [⟨s!"{stem}_{o.issued + 1}", body⟩],
    numbers ++ [o.issued + 1], ?_, ?_, ?_, ?_⟩
  · simp only [hf, List.append_assoc]
  · exact List.rel_append hnum (.cons ⟨stem, rfl⟩ .nil)
  · rw [List.nodup_append]
    refine ⟨hnodup, List.nodup_cons.mpr ⟨List.not_mem_nil, List.nodup_nil⟩, fun k hk l hl hkl => ?_⟩
    obtain rfl := List.mem_singleton.mp hl
    have := hrange k hk
    omega
  · intro k hk
    simp only
    rcases List.mem_append.mp hk with hk | hk
    · have := hrange k hk
      omega
    · obtain rfl := List.mem_singleton.mp hk
      omega

theorem names (h : Grows .empty o) : (o.fragments.map Fragment.name).Nodup := by
  obtain ⟨-, added, numbers, hf, hnum, hnodup, -⟩ := h
  rw [hf]
  exact names_nodup hnum hnodup

end Grows

end Lowering

end EventRules
