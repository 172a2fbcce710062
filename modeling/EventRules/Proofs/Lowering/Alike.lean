import EventRules.Proofs.Lowering.Growth
import EventRules.Proofs.Lowering.Twin
import EventRules.Proofs.Run.Coupling

/-!
# Lowering one expression in two places

The same work, begun from an output with `offset` fragments more than another one, ends alike: with the
same error, or with results that are twins. `AlikeAt` says this of two begun computations; there is one
lemma for each way to put lowerings together, and one for a fragment that is named, filled and emitted.
-/

namespace EventRules.Lowering
set_option autoImplicit false

open Routine

/-- Two places to lower at: so many fragments more stand on the left. -/
structure Doubling where
  registry : Registry
  calculates : Prop
  offset : Nat

variable {d : Doubling} {o o' u u' : Output} {α β α' β' : Type}

def Doubling.site (d : Doubling) (o o' : Output) : Site :=
  ⟨d.registry, d.calculates, o.fragments, o'.fragments, d.offset⟩

/-- The fragments on the right are copies of the last ones on the left. -/
structure InStep (d : Doubling) (o o' : Output) : Prop where
  length : o.fragments.length = d.offset + o'.fragments.length
  body : ∀ {j : Nat} {g : Fragment}, o'.fragments[j]? = some g →
    ∃ f, o.fragments[d.offset + j]? = some f ∧ FragmentBody.Twin (d.site o o') j f.body g.body

theorem before_of_grows (d : Doubling) (h : Grows o u) (h' : Grows o' u') :
    (d.site o o').Before (d.site u u') :=
  ⟨rfl, id, h.keeps_fragments, h'.keeps_fragments, rfl⟩

theorem InStep.twins (h : InStep d o o') (hl : Grows .empty o) (hr : Grows .empty o') :
    (d.site o o').Twins :=
  ⟨hl.names, hr.names, h.body⟩

/-- Code behind all fragments of a site. -/
def CodeTwin (site : Site) (c c' : Code) : Prop := Code.Twin site site.right.length c c'

theorem CodeTwin.mono {site later : Site} (h : site.Before later) {c c' : Code}
    (hc : CodeTwin site c c') : CodeTwin later c c' :=
  Code.Twin.mono h h.right.length_le hc

/-- What two lowerings come to from outputs that are in step. -/
structure Ended (d : Doubling) (Q : Site → α → β → Prop) (o o' : Output)
    (r : Except LoweringError α × Output) (r' : Except LoweringError β × Output) : Prop where
  left : Grows o r.2
  right : Grows o' r'.2
  step : InStep d r.2 r'.2
  outcome : SameOutcome Eq (Q (d.site r.2 r'.2)) r.1 r'.1

/-- From the outputs `o` and `o'` the two lowerings end alike. -/
def AlikeAt (d : Doubling) (Q : Site → α → β → Prop) (m : Lower α) (m' : Lower β) (o o' : Output) :
    Prop :=
  InStep d o o' → Ended d Q o o' (m.run o) (m'.run o')

def Alike (d : Doubling) (Q : Site → α → β → Prop) (m : Lower α) (m' : Lower β) : Prop :=
  ∀ o o', AlikeAt d Q m m' o o'

namespace AlikeAt

variable {Q : Site → α → β → Prop} {m : Lower α} {m' : Lower β}

protected theorem ofExcept {r : Except LoweringError α} {r' : Except LoweringError β}
    (h : SameOutcome Eq (Q (d.site o o')) r r') : AlikeAt d Q (ofExcept r) (ofExcept r') o o' :=
  fun hs => ⟨.refl o, .refl o', hs, h⟩

theorem pure {a : α} {b : β} (h : Q (d.site o o') a b) :
    AlikeAt d Q (Pure.pure a) (Pure.pure b) o o' :=
  AlikeAt.ofExcept (.ok h)

theorem fail (e : LoweringError) : AlikeAt d Q (Routine.fail e) (Routine.fail e) o o' :=
  AlikeAt.ofExcept (.error rfl)

theorem bind_growing {R : Site → α' → β' → Prop} {f : α → Lower α'} {f' : β → Lower β'}
    (h : AlikeAt d Q m m' o o')
    (hf : ∀ a b u u', InStep d u u' → Grows o u → Grows o' u' → Q (d.site u u') a b →
      AlikeAt d R (f a) (f' b) u u') :
    AlikeAt d R (m >>= f) (m' >>= f') o o' := by
  intro hs
  obtain ⟨hl, hr, hs', ho⟩ := h hs
  rw [run_bind, run_bind]
  cases hm : m.run o with
  | mk r u =>
    cases hm' : m'.run o' with
    | mk r' u' =>
      rw [hm, hm'] at ho
      rw [hm] at hl hs'
      rw [hm'] at hr hs'
      cases ho with
      | error he => exact ⟨hl, hr, hs', .error he⟩
      | ok ho =>
        obtain ⟨hl', hr', hs'', ho'⟩ := hf _ _ u u' hs' hl hr ho hs'
        exact ⟨hl.trans hl', hr.trans hr', hs'', ho'⟩

theorem bind {R : Site → α' → β' → Prop} {f : α → Lower α'} {f' : β → Lower β'}
    (h : AlikeAt d Q m m' o o')
    (hf : ∀ a b u u', (d.site o o').Before (d.site u u') → Q (d.site u u') a b →
      AlikeAt d R (f a) (f' b) u u') :
    AlikeAt d R (m >>= f) (m' >>= f') o o' :=
  bind_growing h fun a b u u' _ hl hr hab => hf a b u u' (before_of_grows d hl hr) hab

theorem map {R : Site → α' → β' → Prop} {f : α → α'} {f' : β → β'} (h : AlikeAt d Q m m' o o')
    (hf : ∀ a b site, Q site a b → R site (f a) (f' b)) :
    AlikeAt d R (f <$> m) (f' <$> m') o o' :=
  bind h fun a b _ _ _ hab => pure (hf a b _ hab)

theorem ofExcept_bind {γ : Type} {r : Except LoweringError γ} {f : γ → Lower α} {f' : γ → Lower β}
    (h : ∀ c, r = .ok c → AlikeAt d Q (f c) (f' c) o o') :
    AlikeAt d Q (ofExcept r >>= f) (ofExcept r >>= f') o o' := by
  cases r with
  | error e => exact fail e
  | ok c => exact h c rfl

theorem warn (operator : String) :
    AlikeAt d (fun _ _ _ => True) (Lowering.warn operator) (Lowering.warn operator) o o' := by
  intro hs
  exact ⟨.of_same rfl rfl, .of_same rfl rfl, ⟨hs.length, hs.body⟩, .ok trivial⟩

protected theorem withinChain (h : Alike d Q m m') (x y : String) :
    AlikeAt d Q (withinChain x m) (withinChain y m') o o' := by
  intro hs
  obtain ⟨hl, hr, hs', ho⟩ := h { o with pendingChain := some x } { o' with pendingChain := some y }
    ⟨hs.length, hs.body⟩
  exact ⟨hl, hr, ⟨hs'.length, hs'.body⟩, ho⟩

/-- What reads the output may read another one on each side. -/
theorem state_bind {f : Output → Lower α} {f' : Output → Lower β}
    (h : AlikeAt d Q (f o) (f' o') o o') : AlikeAt d Q (state >>= f) (state >>= f') o o' := h

end AlikeAt

/-- A fragment: its name is drawn, its body is lowered, and it is emitted. -/
def named (stem : String) (body : String → Lower FragmentBody) : Lower Code := do
  let name ← drawName stem
  emit name (← body name)

theorem map_bind (m : Lower α) (f : α → β) (k : β → Lower α') :
    (f <$> m) >>= k = m >>= fun a => k (f a) := bind_bind m (fun a => Pure.pure (f a)) k

theorem named_run (stem : String) (body : String → Lower FragmentBody) (o : Output) :
    (named stem body).run o =
      match (body s!"{stem}_{o.issued + 1}").run { o with issued := o.issued + 1 } with
      | (.ok b, u) =>
        (.ok (.call s!"{stem}_{o.issued + 1}" u.fragments.length),
          { u with fragments := u.fragments ++ [⟨s!"{stem}_{o.issued + 1}", b⟩] })
      | (.error e, u) => (.error e, u) := by
  have hdraw : (drawName stem).run o =
      (.ok s!"{stem}_{o.issued + 1}", { o with issued := o.issued + 1 }) := rfl
  rw [named, run_bind_ok hdraw, run_bind]
  split
  · next h => rw [h]; rfl
  · next h => rw [h]

theorem InStep.emit (hs : InStep d o o') {x y : String} {b b' : FragmentBody}
    (hb : FragmentBody.Twin (d.site o o') o'.fragments.length b b') :
    InStep d { o with fragments := o.fragments ++ [⟨x, b⟩] }
      { o' with fragments := o'.fragments ++ [⟨y, b'⟩] } := by
  have hbefore : (d.site o o').Before (d.site { o with fragments := o.fragments ++ [⟨x, b⟩] }
      { o' with fragments := o'.fragments ++ [⟨y, b'⟩] }) :=
    ⟨rfl, id, ⟨_, rfl⟩, ⟨_, rfl⟩, rfl⟩
  have hlength := hs.length
  constructor
  · simp only [List.length_append, List.length_singleton]
    omega
  · intro j g hg
    by_cases hj : j < o'.fragments.length
    · rw [List.getElem?_append_left hj] at hg
      obtain ⟨f, hf, htwin⟩ := hs.body hg
      exact ⟨f, getElem_of_longer ⟨_, rfl⟩ hf, htwin.mono hbefore (Nat.le_refl j)⟩
    · have hlt := (List.getElem?_eq_some_iff.mp hg).1
      simp only [List.length_append, List.length_singleton] at hlt
      obtain rfl : j = o'.fragments.length := by omega
      rw [List.getElem?_concat_length] at hg
      obtain rfl := Option.some.inj hg
      refine ⟨⟨x, b⟩, ?_, hb.mono hbefore (Nat.le_refl _)⟩
      rw [← hlength, List.getElem?_concat_length]

theorem named_alike {body body' : String → Lower FragmentBody} (stem : String)
    (h : ∀ x y, Alike d (fun site => FragmentBody.Twin site site.right.length) (body x) (body' y)) :
    Alike d CodeTwin (named stem body) (named stem body') := by
  intro o p hs
  have hdrawn : InStep d { o with issued := o.issued + 1 } { p with issued := p.issued + 1 } :=
    ⟨hs.length, hs.body⟩
  obtain ⟨hl, hr, hs', ho⟩ := h s!"{stem}_{o.issued + 1}" s!"{stem}_{p.issued + 1}" _ _ hdrawn
  rw [named_run, named_run]
  cases hm : (body s!"{stem}_{o.issued + 1}").run { o with issued := o.issued + 1 } with
  | mk r u =>
    cases hm' : (body' s!"{stem}_{p.issued + 1}").run { p with issued := p.issued + 1 } with
    | mk r' u' =>
      rw [hm] at hl
      rw [hm'] at hr
      rw [hm, hm'] at hs' ho
      cases ho with
      | error he => exact ⟨(Grows.draw o).trans hl, (Grows.draw p).trans hr, hs', .error he⟩
      | ok hb =>
        refine ⟨hl.emit, hr.emit, hs'.emit hb, .ok ?_⟩
        have hlength : u.fragments.length = d.offset + u'.fragments.length := hs'.length
        simp only [hlength]
        refine Code.Twin.call ?_ ?_
        · simp [Doubling.site]
        · refine ⟨?_, ?_⟩
          · simp [Doubling.site, ← hlength]
          · simp [Doubling.site]

end EventRules.Lowering
