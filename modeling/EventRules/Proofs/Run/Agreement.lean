import EventRules.Evaluation
import EventRules.Proofs.Lowering.Twin
import EventRules.Proofs.Run.Coupling

/-!
# Sessions that agree on two copies

Two sessions agree at a site when the fragments at the same place of both copies have similar states
that fit them, and all other states are what they were in the beginning. A fragment without a stored
state has its initial one. What a chain handed on last is written but never read, so two chains may
also be called similar that only retain the same.
-/

namespace EventRules
set_option autoImplicit false

def Monitor.Plan.Fits : Monitor.Plan → Monitor.State → Prop
  | .count .., .count _ | .keep .., .keep _ | .delay _, .delay _ | .slope .., .slope _ => True
  | _, _ => False

/-- The state is one of a fragment with this body. -/
def FragmentBody.Fits : FragmentBody → FragmentState → Prop
  | .chain _, .chain _ | .arrow _, .arrow _ => True
  | .monitor plan, .monitor state => plan.Fits state
  | _, _ => False

theorem FragmentBody.fits_initial (body : FragmentBody) : body.Fits body.initial := by
  cases body with
  | chain plan => trivial
  | arrow plan => trivial
  | monitor plan => cases plan <;> trivial

/-- The state of a fragment in an environment. -/
def Fragment.stateIn (f : Fragment) (env : Environment) : FragmentState :=
  (env.states.get? f.name).getD f.body.initial

structure Chain.State.Similar (exact : Prop) (a b : Chain.State) : Prop where
  retained : a.retained = b.retained
  emitted : exact → a.emitted = b.emitted

inductive FragmentState.Similar (exact : Prop) : FragmentState → FragmentState → Prop where
  | chain {a b : Chain.State} (h : a.Similar exact b) : Similar exact (.chain a) (.chain b)
  | arrow (a : Arrow.State) : Similar exact (.arrow a) (.arrow a)
  | monitor (a : Monitor.State) : Similar exact (.monitor a) (.monitor a)

theorem FragmentState.Similar.refl (exact : Prop) (a : FragmentState) : a.Similar exact a := by
  cases a with
  | chain a => exact .chain ⟨rfl, fun _ => rfl⟩
  | arrow a => exact .arrow a
  | monitor a => exact .monitor a

theorem FragmentState.Similar.eq {a b : FragmentState} (h : a.Similar True b) : a = b := by
  cases h with
  | @chain a b h =>
    obtain ⟨retained, emitted⟩ := a
    obtain ⟨h₁, h₂⟩ := h
    simp only at h₁ h₂
    rw [h₁, h₂ trivial]
  | arrow a => rfl
  | monitor a => rfl

namespace Site

variable {site : Site} {j k : Nat} {x y z : String}

theorem Place.of_fragments {f g : Fragment} (hf : site.left[site.offset + j]? = some f)
    (hg : site.right[j]? = some g) : site.Place j f.name g.name := by
  rw [Place, hf, hg]
  exact ⟨rfl, rfl⟩

theorem Place.fragments (h : site.Place j x y) : ∃ f g, site.left[site.offset + j]? = some f ∧
    site.right[j]? = some g ∧ f.name = x ∧ g.name = y := by
  obtain ⟨f, hf, hx⟩ := Option.map_eq_some_iff.mp h.1
  obtain ⟨g, hg, hy⟩ := Option.map_eq_some_iff.mp h.2
  exact ⟨f, g, hf, hg, hx, hy⟩

theorem index_eq_of_name {fragments : List Fragment} (h : (fragments.map Fragment.name).Nodup)
    {i k : Nat} {f g : Fragment} (hf : fragments[i]? = some f) (hg : fragments[k]? = some g)
    (hfg : f.name = g.name) : i = k := by
  have hi : i < (fragments.map Fragment.name).length := by
    rw [List.length_map]
    exact (List.getElem?_eq_some_iff.mp hf).1
  refine (List.getElem?_inj hi h).mp ?_
  rw [List.getElem?_map, List.getElem?_map, hf, hg, Option.map_some, Option.map_some, hfg]

theorem initial_similar {bound : Nat} {b c : FragmentBody} (h : FragmentBody.Twin site bound b c)
    (exact : Prop) : b.initial.Similar exact c.initial := by
  cases h with
  | chain h => exact .refl exact _
  | arrow h => exact .refl exact _
  | monitor h =>
    cases h <;> exact .refl exact _

end Site

variable {site : Site} {exact : Prop} {base base' : Keyed FragmentState} {s s' t t' : Session}

/-- Sessions that agree on the copies; `base` and `base'` hold the states outside of them. -/
structure Agree (site : Site) (exact : Prop) (base base' : Keyed FragmentState) (s t : Session) :
    Prop where
  states : ∀ {j : Nat} {f g : Fragment}, site.left[site.offset + j]? = some f →
    site.right[j]? = some g → (f.stateIn s.env).Similar exact (g.stateIn t.env) ∧
      g.body.Fits (g.stateIn t.env)
  left_others : ∀ {name : String}, (∀ j x y, site.Place j x y → x ≠ name) →
    s.env.states.get? name = base.get? name
  right_others : ∀ {name : String}, (∀ j x y, site.Place j x y → y ≠ name) →
    t.env.states.get? name = base'.get? name

namespace Agree

theorem of_env (h : Agree site exact base base' s t) (hs : s'.env = s.env) (ht : t'.env = t.env) :
    Agree site exact base base' s' t' := by
  obtain ⟨h₁, h₂, h₃⟩ := h
  constructor
  · rw [hs, ht]
    exact h₁
  · rw [hs]
    exact h₂
  · rw [ht]
    exact h₃

theorem note (h : Agree site exact base base' s t) (e e' : TraceEntry) :
    Agree site exact base base' { s with trace := e :: s.trace } { t with trace := e' :: t.trace } :=
  h.of_env rfl rfl

theorem update (hw : site.Twins) (h : Agree site exact base base' s t) {j : Nat} {f g : Fragment}
    (hf : site.left[site.offset + j]? = some f) (hg : site.right[j]? = some g)
    (hs : ∀ name, name ≠ f.name → s'.env.states.get? name = s.env.states.get? name)
    (ht : ∀ name, name ≠ g.name → t'.env.states.get? name = t.env.states.get? name)
    (hj : (f.stateIn s'.env).Similar exact (g.stateIn t'.env) ∧ g.body.Fits (g.stateIn t'.env)) :
    Agree site exact base base' s' t' := by
  have hplace := Site.Place.of_fragments hf hg
  constructor
  · intro k f' g' hf' hg'
    by_cases hkj : k = j
    · subst hkj
      obtain rfl : f = f' := Option.some.inj (hf.symm.trans hf')
      obtain rfl : g = g' := Option.some.inj (hg.symm.trans hg')
      exact hj
    · have hfn : f'.name ≠ f.name := by
        intro hn
        have := Site.index_eq_of_name hw.left_names hf' hf hn
        omega
      have hgn : g'.name ≠ g.name := fun hn => hkj (Site.index_eq_of_name hw.right_names hg' hg hn)
      rw [Fragment.stateIn, Fragment.stateIn, hs _ hfn, ht _ hgn]
      exact h.states hf' hg'
  · intro name hn
    rw [hs name (hn j _ _ hplace).symm]
    exact h.left_others hn
  · intro name hn
    rw [ht name (hn j _ _ hplace).symm]
    exact h.right_others hn

theorem remove (hw : site.Twins) (h : Agree site exact base base' s t) {j : Nat} {x y : String}
    (hp : site.Place j x y) :
    Agree site exact base base' { s with env := { s.env with states := s.env.states.remove x } }
      { t with env := { t.env with states := t.env.states.remove y } } := by
  obtain ⟨f, g, hf, hg, rfl, rfl⟩ := hp.fragments
  refine h.update hw hf hg (fun name hn => Keyed.get_remove_of_ne _ hn)
    (fun name hn => Keyed.get_remove_of_ne _ hn) ?_
  obtain ⟨f', hf', htwin⟩ := hw.body hg
  obtain rfl : f = f' := Option.some.inj (hf.symm.trans hf')
  simp only [Fragment.stateIn, Keyed.get_remove_self, Option.getD_none]
  exact ⟨Site.initial_similar htwin exact, g.body.fits_initial⟩

theorem put (hw : site.Twins) (h : Agree site exact base base' s t) {j : Nat} {f g : Fragment}
    (hf : site.left[site.offset + j]? = some f) (hg : site.right[j]? = some g) {a b : FragmentState}
    (hab : a.Similar exact b) (hfits : g.body.Fits b) :
    Agree site exact base base' { s with env := { s.env with states := s.env.states.put f.name a } }
      { t with env := { t.env with states := t.env.states.put g.name b } } := by
  refine h.update hw hf hg (fun name hn => Keyed.get_put_of_ne _ hn a)
    (fun name hn => Keyed.get_put_of_ne _ hn b) ?_
  simp only [Fragment.stateIn, Keyed.get_put_self, Option.getD_some]
  exact ⟨hab, hfits⟩

theorem reset (hw : site.Twins) {owned owned' : List String}
    (ho : List.Forall₂ (fun x y => ∃ j, site.Place j x y) owned owned')
    (h : Agree site exact base base' s t) :
    Agree site exact base base' { s with env := owned.foldl Environment.resetState s.env }
      { t with env := owned'.foldl Environment.resetState t.env } := by
  induction ho generalizing s t with
  | nil => exact h
  | cons hp _ ih =>
    obtain ⟨j, hp⟩ := hp
    exact ih (h.remove hw hp)

end Agree

end EventRules
