import EventRules.Proofs.Rule.Walking

/-!
# Steps that an equation determines

A loop goes on while its test holds, and a construct calls the step for what is nested in it; neither has a
bound. The steps of the grammar have one, and still they are what the equation without it defines: they
satisfy it, and nothing else does, because each call stands before less. A loop whose test is weaker goes on
where one with a stronger test has stopped.
-/

namespace EventRules
set_option autoImplicit false

open Token Routine Parse Respelling

variable {α : Type} {F : Parse α → Parse α} {f g : Parse α} {p q : Parser}

/-- The step `f` is what the recursive equation `f = F f` defines, on every parser with an end token
behind its tokens. -/
structure Determined (F : Parse α → Parse α) (f : Parse α) : Prop where
  solves : ∀ p : Parser, p.last.isEnd = true → f.run p = (F f).run p
  only : ∀ g : Parse α, (∀ p : Parser, p.last.isEnd = true → g.run p = (F g).run p) →
    ∀ p : Parser, p.last.isEnd = true → g.run p = f.run p

/-- Where the equation calls the step with less ahead only, it has one solution. -/
theorem Determined.of_descent (size : Parser → Nat)
    (hsolves : ∀ p : Parser, p.last.isEnd = true → f.run p = (F f).run p)
    (hdescends : ∀ (g : Parse α) (p : Parser), p.last.isEnd = true →
      (∀ q : Parser, q.last.isEnd = true → size q < size p → g.run q = f.run q) →
        (F g).run p = (F f).run p) : Determined F f := by
  refine ⟨hsolves, fun g hg p hp => ?_⟩
  induction hsize : size p using Nat.strongRecOn generalizing p with
  | ind n ih =>
    rw [hg p hp, hsolves p hp]
    exact hdescends g p hp fun q hq hlt => ih (size q) (hsize ▸ hlt) q hq rfl

/-- The same for steps with an argument, each of which may call all of them. -/
structure EachDetermined {ι : Type} (F : (ι → Parse α) → ι → Parse α) (f : ι → Parse α) : Prop where
  solves : ∀ i (p : Parser), p.last.isEnd = true → (f i).run p = (F f i).run p
  only : ∀ g : ι → Parse α, (∀ i (p : Parser), p.last.isEnd = true → (g i).run p = (F g i).run p) →
    ∀ i (p : Parser), p.last.isEnd = true → (g i).run p = (f i).run p

/-- Where there is less ahead, or as much and an argument of smaller rank, the call is one further down. -/
theorem EachDetermined.of_descent {ι : Type} {F : (ι → Parse α) → ι → Parse α} {f : ι → Parse α}
    (size : Parser → Nat) (rank : ι → Parser → Nat)
    (hsolves : ∀ i (p : Parser), p.last.isEnd = true → (f i).run p = (F f i).run p)
    (hdescends : ∀ (g : ι → Parse α) i (p : Parser), p.last.isEnd = true →
      (∀ j (q : Parser), q.last.isEnd = true → size q < size p → (g j).run q = (f j).run q) →
      (∀ j, rank j p < rank i p → (g j).run p = (f j).run p) →
        (F g i).run p = (F f i).run p) : EachDetermined F f := by
  refine ⟨hsolves, fun g hg i p hp => ?_⟩
  induction hsize : size p using Nat.strongRecOn generalizing i p with
  | ind n ih =>
    induction hrank : rank i p using Nat.strongRecOn generalizing i with
    | ind k ihrank =>
      rw [hg i p hp, hsolves i p hp]
      refine hdescends g i p hp (fun j q hq hlt => ih (size q) (hsize ▸ hlt) j q hq rfl) fun j hlt => ?_
      exact ihrank (rank j p) (hrank ▸ hlt) j rfl

/-! ### Loops -/

/-- One round of a loop, and what comes after it. -/
def Parse.round (more : Parser → Bool) (item : Parse α) (rest : Parse (List α)) : Parse (List α) := do
  if more (← state) then
    let a ← item
    let as ← rest
    return a :: as
  else return []

/-- A loop with as many rounds as there are tokens ahead. -/
def Parse.roundsAhead (more : Parser → Bool) (item : Parse α) : Parse (List α) := do
  let p ← state
  repeatWhile more item p.ahead.length

theorem round_stop {more : Parser → Bool} (item : Parse α) (rest : Parse (List α)) (h : more p = false) :
    (round more item rest).run p = (.ok [], p) := by
  rw [Parse.round, run_bind_ok (run_state p), h]
  rfl

theorem round_some {more : Parser → Bool} (item : Parse α) (rest : Parse (List α)) (h : more p = true) :
    (round more item rest).run p = (do
      let a ← item
      let as ← rest
      return a :: as : Parse (List α)).run p := by
  rw [Parse.round, run_bind_ok (run_state p), h]
  rfl

theorem roundsAhead_stop {more : Parser → Bool} (item : Parse α) (h : more p = false) :
    (roundsAhead more item).run p = (.ok [], p) := by
  rw [roundsAhead, run_bind_ok (run_state p)]
  exact repeatWhile_none h _

section

variable {keep : α → List Token} {more : Parser → Bool} {item : Parse α}
  (hitem : ∀ p : Parser, p.last.isEnd = true → more p = true → Walks (Keeps keep 2) item item p)
include hitem

/-- A round passes a token, so the loop goes on with less ahead. -/
theorem round_congr {rest rest' : Parse (List α)} (hp : p.last.isEnd = true)
    (h : ∀ q : Parser, q.last.isEnd = true → total q.ahead < total p.ahead → rest'.run q = rest.run q) :
    (round more item rest').run p = (round more item rest).run p := by
  cases hmore : more p with
  | false => rw [round_stop _ _ hmore, round_stop _ _ hmore]
  | true =>
    rw [round_some _ _ hmore, round_some _ _ hmore]
    refine run_bind_next fun a q hrun => ?_
    obtain ⟨ts, hts, ha⟩ := (hitem p hp hmore).answer hrun
    have htotal := hts.total_le
    have hsize := ha.total_ge
    exact run_bind_congr (h q (hts.ended hp) (by omega)) _

/-- A loop at operators, with rounds that pass two at least. -/
theorem loop_determined (hoperator : ∀ p, more p = true → p.current.kind = .operator) :
    Determined (round more item) (roundsAhead more item) := by
  have hrounds : ∀ {p : Parser} {n : Nat}, p.last.isEnd = true → total p.ahead ≤ 2 * n →
      (repeatWhile more item n).run p = (roundsAhead more item).run p := by
    intro p n hp hn
    have hwalk := Walks.repeatWhile hoperator (fun q hq => hitem q hq.ended) (.own hp) (total_le p.ahead) hn
    exact hwalk.same
  refine .of_descent (fun p => total p.ahead) (fun p hp => ?_) fun g p hp hless =>
    round_congr hitem hp hless
  have hbound := total_le p.ahead
  calc (roundsAhead more item).run p
    _ = (repeatWhile more item (p.ahead.length + 1)).run p := (hrounds hp (by omega)).symm
    _ = (round more item (repeatWhile more item p.ahead.length)).run p := rfl
    _ = (round more item (roundsAhead more item)).run p :=
      round_congr hitem hp fun q hq hlt => hrounds hq (by omega)

variable (hoperator : ∀ p, more p = true → p.current.kind = .operator)
include hoperator

theorem roundsAhead_some (hp : p.last.isEnd = true) (h : more p = true) :
    (roundsAhead more item).run p = (do
      let a ← item
      let as ← roundsAhead more item
      return a :: as : Parse (List α)).run p := by
  rw [(loop_determined hitem hoperator).solves p hp, round_some _ _ h]

/-- A loop ends where it would not go on. -/
theorem roundsAhead_stopped {as : List α} (hp : p.last.isEnd = true)
    (h : (roundsAhead more item).run p = (.ok as, q)) : more q = false := by
  induction hsize : total p.ahead using Nat.strongRecOn generalizing p as with
  | ind n ih =>
    cases hmore : more p with
    | false =>
      rw [roundsAhead_stop item hmore] at h
      cases h
      exact hmore
    | true =>
      rw [roundsAhead_some hitem hoperator hp hmore] at h
      obtain ⟨a, p₁, hrun, h⟩ := bind_ok h
      obtain ⟨bs, p₂, hrest, h⟩ := bind_ok h
      cases h
      obtain ⟨ts, hts, ha⟩ := (hitem p hp hmore).answer hrun
      have htotal := hts.total_le
      have hpassed := ha.total_ge
      exact ih (total p₁.ahead) (by omega) (hts.ended hp) hrest rfl

/-- Before it stops, a loop does the rounds of one with a stronger test. -/
theorem roundsAhead_split {strict : Parser → Bool} (hstrict : ∀ p, strict p = true → more p = true)
    (hp : p.last.isEnd = true) :
    (roundsAhead more item).run p = (do
      let as ← roundsAhead strict item
      let bs ← roundsAhead more item
      return as ++ bs : Parse (List α)).run p := by
  have hitem' : ∀ p : Parser, p.last.isEnd = true → strict p = true → Walks (Keeps keep 2) item item p :=
    fun p hp hs => hitem p hp (hstrict p hs)
  have hoperator' : ∀ p, strict p = true → p.current.kind = .operator := fun p hs => hoperator p (hstrict p hs)
  induction hsize : total p.ahead using Nat.strongRecOn generalizing p with
  | ind n ih =>
    cases hs : strict p with
    | false =>
      rw [run_bind_ok (roundsAhead_stop item hs), run_bind]
      cases (roundsAhead more item).run p with
      | mk r q =>
        cases r with
        | error e => rfl
        | ok as => rfl
    | true =>
      have hmore := hstrict p hs
      rw [roundsAhead_some hitem hoperator hp hmore,
        run_bind_congr (roundsAhead_some hitem' hoperator' hp hs), bind_bind]
      refine run_bind_next fun a q hrun => ?_
      obtain ⟨ts, hts, ha⟩ := (hitem p hp hmore).answer hrun
      have htotal := hts.total_le
      have hpassed := ha.total_ge
      rw [run_bind_congr (ih (total q.ahead) (by omega) (hts.ended hp) rfl)]
      simp only [bind_bind]
      rfl

end

end EventRules
