import EventRules.Proofs.Run.Evaluation

/-!
# Calls of twins

A fragment runs on its own state, which is out of the session meanwhile and put back in the end. On
sessions that agree both copies of a fragment find similar states that fit their bodies, so the way out
for a state of another fragment is never taken. By induction on the place all calls are coupled, and so
is the evaluation of code that stands behind all fragments.
-/

namespace EventRules
set_option autoImplicit false

open Routine

variable {site : Site} {exact : Prop} {base base' : Keyed FragmentState} {j : Nat} {f g : Fragment}

theorem withState_coupled {State : Type} {R : State → State → Prop} {wrap : State → FragmentState}
    {step step' : Step State Bool} {a b : State} (hw : site.Twins)
    (hf : site.left[site.offset + j]? = some f) (hg : site.right[j]? = some g)
    (hstep : Coupled (Step.Both R (Agree site exact base base')) (RunError.Twin site) Eq step step')
    (hwrap : ∀ a b, R a b → (wrap a).Similar exact (wrap b) ∧ g.body.Fits (wrap b)) (hab : R a b) :
    Coupled (Agree site exact base base') (RunError.Twin site) Eq (withState f.name wrap a step)
      (withState g.name wrap b step') := by
  intro s t hst
  have hout := hst.remove hw (Site.Place.of_fragments hf hg)
  obtain ⟨⟨hr, hs⟩, ho⟩ := hstep (a, _) (b, _) ⟨hab, hout⟩
  obtain ⟨hsimilar, hfits⟩ := hwrap _ _ hr
  exact ⟨hs.put hw hf hg hsimilar hfits, ho⟩

theorem fragment_coupled {eval eval' : Evaluator} (hw : site.Twins)
    (hf : site.left[site.offset + j]? = some f) (hg : site.right[j]? = some g)
    (hbody : FragmentBody.Twin site j f.body g.body)
    (h : CodeCoupled site (Agree site exact base base') j eval eval') (event : Event)
    (anchor : Option Int64) :
    Coupled (Agree site exact base base') (RunError.Twin site) Eq
      (f.run eval (site.leftFrame event anchor)) (g.run eval' (site.rightFrame event anchor)) := by
  refine Coupled.bind (note_coupled _ _) fun _ _ _ => ?_
  refine Coupled.bind Coupled.state fun s t hst => ?_
  obtain ⟨hsimilar, hfits⟩ := hst.states hf hg
  clear hst
  obtain ⟨x, body⟩ := f
  obtain ⟨y, body'⟩ := g
  simp only [Fragment.stateIn] at hsimilar hfits
  generalize (s.env.states.get? x).getD body.initial = a at hsimilar ⊢
  generalize (t.env.states.get? y).getD body'.initial = b at hsimilar hfits ⊢
  cases hbody with
  | chain hpq =>
    cases hsimilar with
    | chain hab =>
      exact withState_coupled hw hf hg (chain_coupled h hf hg rfl hpq)
        (fun _ _ hab => ⟨.chain hab, trivial⟩) hab
    | arrow a => exact absurd hfits id
    | monitor a => exact absurd hfits id
  | arrow hpq =>
    cases hsimilar with
    | chain hab => exact absurd hfits id
    | arrow a =>
      refine withState_coupled hw hf hg (arrow_coupled hw h hpq) (fun a b hab => ?_) rfl
      subst hab
      exact ⟨.arrow a, trivial⟩
    | monitor a => exact absurd hfits id
  | monitor hpq =>
    cases hsimilar with
    | chain hab => exact absurd hfits id
    | arrow a => exact absurd hfits id
    | monitor a =>
      refine withState_coupled hw hf hg (monitor_coupled h hpq) (fun a b hab => ?_) ⟨rfl, hfits⟩
      obtain ⟨rfl, hfits⟩ := hab
      exact ⟨.monitor a, hfits⟩

theorem call_coupled (hw : site.Twins) {j depth depth' : Nat} (hj : j < depth) (hj' : j < depth')
    {x y : String} (hp : site.Place j x y) (event : Event) (anchor : Option Int64) :
    Coupled (Agree site exact base base') (RunError.Twin site) Eq
      (callFragment depth x (site.offset + j) (site.leftFrame event anchor))
      (callFragment depth' y j (site.rightFrame event anchor)) := by
  -- a fragment calls only those in front of it, so the places of the calls inside are smaller
  induction j using Nat.strongRecOn generalizing depth depth' x y event anchor with
  | ind j ih =>
    obtain ⟨f, g, hf, hg, rfl, rfl⟩ := hp.fragments
    obtain ⟨f', hf', hbody⟩ := hw.body hg
    obtain rfl : f = f' := Option.some.inj (hf.symm.trans hf')
    cases depth with
    | zero => exact absurd hj (Nat.not_lt_zero j)
    | succ depth =>
      cases depth' with
      | zero => exact absurd hj' (Nat.not_lt_zero j)
      | succ depth' =>
        have hcalls : CallsCoupled site (Agree site exact base base') j (callFragment depth)
            (callFragment depth') :=
          fun hk hp event anchor => ih _ hk (by omega) (by omega) hp event anchor
        have hleft : (site.leftFrame event anchor).fragments[site.offset + j]? = some f := hf
        have hright : (site.rightFrame event anchor).fragments[j]? = some g := hg
        simp only [callFragment, hleft, hright, if_true]
        exact fragment_coupled hw hf hg hbody (codeCoupled hcalls) event anchor

theorem evaluate_coupled (hw : site.Twins) :
    CodeCoupled site (Agree site exact base base') site.right.length evaluate evaluate := by
  intro c d hcd subject event anchor
  have hcalls : CallsCoupled site (Agree site exact base base') site.right.length
      (callFragment site.left.length) (callFragment site.right.length) := by
    intro j x y hj hp event anchor
    obtain ⟨f, -, hf, -, -, -⟩ := hp.fragments
    have hlt := (List.getElem?_eq_some_iff.mp hf).1
    exact call_coupled hw (by omega) hj hp event anchor
  exact codeCoupled hcalls hcd subject event anchor

end EventRules
