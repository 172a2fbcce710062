import Mathlib.Data.List.DropRight
import Mathlib.Data.List.Induction
import EventRules.Chain.Retention

/-!
# What a chain retains of the events offered to it

A chain is offered events one by one, and its filters let some of them in. What it retains then is known
from the events let in alone: all of them, the latest ones, or for a time limit those that no event from
them on has outlived. A window moves over the events let in by one event with each group that it hands
on, so it leaves none out and hands them on in their order. Times are compared as integers, although the
sums and differences of times are cut off at the ends of the range.
-/

namespace EventRules.Chain
set_option autoImplicit false

open Number

/-! ### Courses of offers -/

/-- What a chain hands on of the retained events if it lets no other one in. -/
def handedAgain : Option Sampler → List Event → Option (List Event)
  | some (.window _), _ => none
  | _, retained => some retained

theorem retain_rejected (sampler : Option Sampler) (retained : List Event) (event : Event) :
    retain sampler retained event false = (retained, handedAgain sampler retained) := by
  rcases sampler with _ | ⟨_ | _⟩ | ⟨_ | _⟩
  all_goals rfl

/-- An event, and whether the filters let it in. -/
structure Offer where
  event : Event
  admitted : Bool

/-- The events let in, in their order. -/
def letIn (offers : List Offer) : List Event := (offers.filter Offer.admitted).map Offer.event

/-- What is retained, and what has been handed on so far, one group for each call that hands on any. -/
structure Course where
  retained : List Event
  groups : List (List Event)

def Course.next (sampler : Option Sampler) (c : Course) (o : Offer) : Course :=
  let (retained, handed) := retain sampler c.retained o.event o.admitted
  ⟨retained, c.groups ++ handed.toList⟩

/-- The course of a chain that begins with nothing. -/
def course (sampler : Option Sampler) (offers : List Offer) : Course :=
  offers.foldl (Course.next sampler) ⟨[], []⟩

/-- The answer to an offer behind others: what is retained, and what is handed on. -/
def answer (sampler : Option Sampler) (offers : List Offer) (o : Offer) :
    List Event × Option (List Event) :=
  retain sampler (course sampler offers).retained o.event o.admitted

section

variable {sampler : Option Sampler} {offers : List Offer} {event : Event}

theorem course_concat (sampler : Option Sampler) (offers : List Offer) (o : Offer) :
    course sampler (offers ++ [o]) =
      ⟨(answer sampler offers o).1, (course sampler offers).groups ++ (answer sampler offers o).2.toList⟩ := by
  rw [course, List.foldl_append]
  rfl

theorem answer_rejected :
    answer sampler offers ⟨event, false⟩ =
      ((course sampler offers).retained, handedAgain sampler (course sampler offers).retained) :=
  retain_rejected sampler _ event

@[simp] theorem letIn_nil : letIn [] = [] := rfl

@[simp] theorem letIn_admitted : letIn (offers ++ [⟨event, true⟩]) = letIn offers ++ [event] := by
  simp [letIn]

@[simp] theorem letIn_rejected : letIn (offers ++ [⟨event, false⟩]) = letIn offers := by
  simp [letIn]

/-- What is retained follows from the events let in, if one more of them does what `f` says. -/
theorem retained_eq {f : List Event → List Event} (hnil : f [] = [])
    (hstep : ∀ as e, (retain sampler (f as) e true).1 = f (as ++ [e])) (offers : List Offer) :
    (course sampler offers).retained = f (letIn offers) := by
  induction offers using List.reverseRecOn with
  | nil => exact hnil.symm
  | append_singleton offers o ih =>
    obtain ⟨event, admitted⟩ := o
    rw [course_concat]
    cases admitted with
    | false =>
      rw [answer_rejected, letIn_rejected]
      exact ih
    | true =>
      rw [answer, ih, letIn_admitted]
      exact hstep _ _

/-- A chain without windows hands on what it retains, with every call. -/
theorem answer_eq {f : List Event → List Event} (hnil : f [] = [])
    (hstep : ∀ as e, retain sampler (f as) e true = (f (as ++ [e]), some (f (as ++ [e]))))
    (hagain : ∀ as, handedAgain sampler as = some as) (offers : List Offer) (o : Offer) :
    answer sampler offers o = (f (letIn (offers ++ [o])), some (f (letIn (offers ++ [o])))) := by
  have hretained := retained_eq hnil (fun as e => by rw [hstep]) offers
  obtain ⟨event, admitted⟩ := o
  cases admitted with
  | false => rw [answer_rejected, letIn_rejected, hagain, hretained]
  | true => rw [answer, letIn_admitted, hretained, hstep]

end

/-! ### Collecting and limits -/

/-- The latest of the events that are kept and a new one are the latest of all. -/
theorem rtake_concat_rtake {α : Type} {n : Nat} (hn : 1 ≤ n) (as : List α) (a : α) :
    (as.rtake n ++ [a]).rtake n = (as ++ [a]).rtake n := by
  obtain ⟨k, rfl⟩ := Nat.exists_eq_add_of_le' hn
  rw [List.rtake_concat_succ, List.rtake_concat_succ]
  congr 1
  simp only [List.rtake, List.drop_drop, List.length_drop]
  congr 1
  omega

/-- The events that are not more than `ms` milliseconds older than any event from them on. -/
def recent (ms : Int64) (as : List Event) : List Event :=
  (as.zipIdx.filter fun (a, i) =>
    (as.drop i).all fun b => b.timestamp.toInt - ms.toInt ≤ a.timestamp.toInt).map Prod.fst

theorem recent_concat (ms : Int64) (as : List Event) (e : Event) :
    recent ms (as ++ [e]) =
      (recent ms as ++ [e]).filter fun a => e.timestamp.toInt - ms.toInt ≤ a.timestamp.toInt := by
  -- an earlier event is held against the events from it on as before, and against the new one
  have hearlier : ∀ p ∈ as.zipIdx,
      ((as ++ [e]).drop p.2).all (fun b => b.timestamp.toInt - ms.toInt ≤ p.1.timestamp.toInt) =
        (decide (e.timestamp.toInt - ms.toInt ≤ p.1.timestamp.toInt) &&
          (as.drop p.2).all fun b => b.timestamp.toInt - ms.toInt ≤ p.1.timestamp.toInt) := by
    intro p hp
    have hlt : p.2 < as.length := by
      have hbound := List.snd_lt_of_mem_zipIdx hp
      omega
    rw [List.drop_append_of_le_length (by omega), List.all_append, Bool.and_comm]
    simp
  rw [recent, List.zipIdx_append, List.filter_append, List.filter_congr hearlier, ← List.filter_filter,
    List.map_append, List.filter_append, recent, List.filter_map]
  congr 1
  simp only [List.zipIdx_singleton, Nat.zero_add, List.filter_cons, List.drop_left, List.filter_nil]
  simp only [List.all_cons, List.all_nil, Bool.and_true]
  split <;> rfl

theorem duration_nonneg {ms : Int64} (h : 1 ≤ ms) : 0 ≤ ms := by
  rw [Int64.le_iff_toInt_le] at h ⊢
  exact Int.le_trans (by decide) h

/-- Without windows a chain retains all events let in, the latest `n`, or those of the latest `ms`
milliseconds as they were counted from each of the events let in; and it hands them on with every
call, also when an event is not let in. -/
theorem retained_latest {n : Nat} {ms : Int64} (hn : 1 ≤ n) (hms : 1 ≤ ms) (offers : List Offer)
    (o : Offer) :
    let as := letIn (offers ++ [o])
    answer none offers o = (as, some as) ∧
      answer (some (.limit (.count n))) offers o = (as.rtake n, some (as.rtake n)) ∧
      answer (some (.limit (.duration ms))) offers o = (recent ms as, some (recent ms as)) := by
  have hms := duration_nonneg hms
  refine ⟨?_, ?_, ?_⟩
  · exact answer_eq (f := id) rfl (fun _ _ => rfl) (fun _ => rfl) offers o
  · refine answer_eq (f := fun as => as.rtake n) (by simp) (fun as e => ?_) (fun _ => rfl) offers o
    have hkept : (as.rtake n ++ [e]).drop ((as.rtake n ++ [e]).length - n) = (as ++ [e]).rtake n :=
      rtake_concat_rtake hn as e
    rw [retain.eq_def]
    simp only [if_true, hkept]
  · refine answer_eq (f := recent ms) rfl (fun as e => ?_) (fun _ => rfl) offers o
    have hkept : (recent ms as ++ [e]).filter (fun a => subClamped e.timestamp ms ≤ a.timestamp) =
        recent ms (as ++ [e]) := by
      simp only [recent_concat, subClamped_le_iff hms]
    rw [retain.eq_def]
    simp only [if_true, hkept]

/-- Times that go back, and an end of the range at which a difference is cut off. -/
theorem retained_latest_backwards :
    let at_ (t : Int64) : Event := ⟨"", .null, t⟩
    let offers := [⟨at_ 5, true⟩, ⟨at_ 20, true⟩, ⟨at_ 90, false⟩, ⟨at_ 3, true⟩]
    let o : Offer := ⟨at_ Int64.minValue, true⟩
    (1 ≤ 2 ∧ (1 : Int64) ≤ 10) ∧
      (answer none offers o).1 = [at_ 5, at_ 20, at_ 3, at_ Int64.minValue] ∧
      (answer (some (.limit (.count 2))) offers o).1 = [at_ 3, at_ Int64.minValue] ∧
      (answer (some (.limit (.duration 10))) offers o).1 = [at_ 20, at_ 3, at_ Int64.minValue] := by
  intro at_ offers o
  have hn : 1 ≤ 2 := by decide
  have hms : (1 : Int64) ≤ 10 := by decide
  obtain ⟨hall, hcount, htime⟩ := retained_latest hn hms offers o
  exact ⟨⟨hn, hms⟩, congrArg Prod.fst hall, congrArg Prod.fst hcount, congrArg Prod.fst htime⟩

/-! ### Windows -/

/-- The runs of `n` events that follow one another, in the order of their first events. -/
def runsOf (n : Nat) (as : List Event) : List (List Event) :=
  (List.range (as.length + 1 - n)).map fun k => (as.drop k).take n

theorem runsOf_concat (n : Nat) (as : List Event) (e : Event) :
    runsOf (n + 1) (as ++ [e]) =
      runsOf (n + 1) as ++ if n ≤ as.length then [(as ++ [e]).rtake (n + 1)] else [] := by
  unfold runsOf
  rw [List.length_append, List.length_singleton]
  by_cases hfull : n ≤ as.length
  · have hcount : as.length + 1 + 1 - (n + 1) = (as.length + 1 - (n + 1)) + 1 := by omega
    rw [hcount, List.range_succ, List.map_append, if_pos hfull]
    congr 1
    · apply List.map_congr_left
      intro k hk
      have hk := List.mem_range.mp hk
      rw [List.drop_append_of_le_length (by omega), List.take_append_of_le_length]
      rw [List.length_drop]
      omega
    · rw [List.map_singleton, List.take_of_length_le, List.rtake]
      · congr 2
        simp
      · simp
        omega
  · have hnone : as.length + 1 + 1 - (n + 1) = 0 := by omega
    have hnone' : as.length + 1 - (n + 1) = 0 := by omega
    rw [hnone, hnone', if_neg hfull, List.append_nil]
    rfl

/-- A window that retains the latest `n` events hands on these and the new one, once there are as many. -/
theorem retain_count_window (n : Nat) (as : List Event) (e : Event) :
    retain (some (.window (.count (n + 1)))) (as.rtake n) e true =
      ((as ++ [e]).rtake n, if n ≤ as.length then some ((as ++ [e]).rtake (n + 1)) else none) := by
  have hadded : as.rtake n ++ [e] = (as ++ [e]).rtake (n + 1) := (List.rtake_concat_succ as n e).symm
  have hlength : ((as ++ [e]).rtake (n + 1)).length = min (n + 1) (as.length + 1) := by
    simp only [List.rtake, List.length_drop, List.length_append, List.length_singleton]
    omega
  rw [retain.eq_def]
  simp only [Bool.not_true, Bool.false_eq_true, if_false, hadded]
  by_cases hfull : n ≤ as.length
  · rw [if_neg (by omega), if_pos hfull, List.take_of_length_le (by omega)]
    congr 1
    simp only [List.rtake, List.drop_drop, List.length_append, List.length_singleton]
    congr 1
    omega
  · rw [if_pos (by omega), if_neg hfull]
    congr 1
    simp only [List.rtake, List.length_append, List.length_singleton]
    congr 1
    omega

/-- A window in time is closed by an event that comes late enough behind its first one. -/
theorem retain_time_window {ms : Int64} (hms : 0 ≤ ms) {retained : List Event} {e head : Event}
    (hhead : (retained ++ [e]).head? = some head) :
    retain (some (.window (.duration ms))) retained e true =
      if ms.toInt ≤ e.timestamp.toInt - head.timestamp.toInt then
        ((retained ++ [e]).drop 1,
          some ((retained ++ [e]).filter fun a => a.timestamp.toInt ≤ head.timestamp.toInt + ms.toInt))
      else (retained ++ [e], none) := by
  rw [retain.eq_def]
  simp only [Bool.not_true, Bool.false_eq_true, if_false, hhead, Option.getD_some, subClamped_lt_iff hms,
    le_addClamped_iff hms]
  by_cases hlate : ms.toInt ≤ e.timestamp.toInt - head.timestamp.toInt
  · rw [if_pos hlate, if_neg (by omega)]
  · rw [if_neg hlate, if_pos (by omega)]

/-- How a window of `n` events has moved over the events let in. -/
structure SlidesByCount (n : Nat) (offers : List Offer) : Prop where
  retained : (course (some (.window (.count n))) offers).retained = (letIn offers).rtake (n - 1)
  groups : (course (some (.window (.count n))) offers).groups = runsOf n (letIn offers)
  hands_on : ∀ event, (answer (some (.window (.count n))) offers ⟨event, true⟩).2.isSome = true ↔
    n - 1 ≤ (letIn offers).length
  rejects : ∀ event, answer (some (.window (.count n))) offers ⟨event, false⟩ =
    ((course (some (.window (.count n))) offers).retained, none)

/-- How a window of `ms` milliseconds has moved over the events let in: it begins behind as many of them
as it has handed on groups. -/
structure SlidesByTime (ms : Int64) (offers : List Offer) : Prop where
  retained : (course (some (.window (.duration ms))) offers).retained =
    (letIn offers).drop (course (some (.window (.duration ms))) offers).groups.length
  hands_on : ∀ event,
    let k := (course (some (.window (.duration ms))) offers).groups.length
    let as := letIn offers ++ [event]
    ∃ head, as[k]? = some head ∧ answer (some (.window (.duration ms))) offers ⟨event, true⟩ =
      if ms.toInt ≤ event.timestamp.toInt - head.timestamp.toInt then
        (as.drop (k + 1),
          some ((as.drop k).filter fun a => a.timestamp.toInt ≤ head.timestamp.toInt + ms.toInt))
      else (as.drop k, none)
  rejects : ∀ event, answer (some (.window (.duration ms))) offers ⟨event, false⟩ =
    ((course (some (.window (.duration ms))) offers).retained, none)

theorem count_window_retained (n : Nat) (offers : List Offer) :
    (course (some (.window (.count (n + 1)))) offers).retained = (letIn offers).rtake n :=
  retained_eq (f := fun as => as.rtake n) (by simp) (fun as e => by rw [retain_count_window]) offers

theorem count_window_groups (n : Nat) (offers : List Offer) :
    (course (some (.window (.count (n + 1)))) offers).groups = runsOf (n + 1) (letIn offers) := by
  induction offers using List.reverseRecOn with
  | nil => simp [course, runsOf]
  | append_singleton offers o ih =>
    obtain ⟨event, admitted⟩ := o
    rw [course_concat, ih]
    cases admitted with
    | false =>
      rw [answer_rejected, letIn_rejected]
      exact List.append_nil _
    | true =>
      rw [answer, count_window_retained, retain_count_window, letIn_admitted, runsOf_concat]
      dsimp only
      split <;> rfl

theorem slidesByCount (n : Nat) (offers : List Offer) : SlidesByCount (n + 1) offers := by
  refine ⟨count_window_retained n offers, count_window_groups n offers, fun event => ?_,
    fun event => answer_rejected⟩
  rw [answer, count_window_retained, retain_count_window]
  dsimp only
  rw [Nat.add_sub_cancel]
  split
  · next hfull => exact iff_of_true rfl hfull
  · next hfew => exact iff_of_false nofun hfew

/-- The step of a window in time that begins behind `k` of the events let in. -/
theorem answer_time_window {ms : Int64} (hms : 0 ≤ ms) {offers : List Offer} {k : Nat}
    (hk : k ≤ (letIn offers).length)
    (hretained : (course (some (.window (.duration ms))) offers).retained = (letIn offers).drop k)
    (event : Event) :
    let as := letIn offers ++ [event]
    ∃ head, as[k]? = some head ∧ answer (some (.window (.duration ms))) offers ⟨event, true⟩ =
      if ms.toInt ≤ event.timestamp.toInt - head.timestamp.toInt then
        (as.drop (k + 1),
          some ((as.drop k).filter fun a => a.timestamp.toInt ≤ head.timestamp.toInt + ms.toInt))
      else (as.drop k, none) := by
  intro as
  have hlt : k < as.length := by
    rw [List.length_append, List.length_singleton]
    omega
  have hadded : (letIn offers).drop k ++ [event] = as.drop k :=
    (List.drop_append_of_le_length hk).symm
  have hhead : ((letIn offers).drop k ++ [event]).head? = some as[k] := by
    rw [hadded, List.head?_drop, List.getElem?_eq_getElem hlt]
  refine ⟨as[k], List.getElem?_eq_getElem hlt, ?_⟩
  rw [answer, hretained, retain_time_window hms hhead, hadded, List.drop_drop]

theorem time_window_retained {ms : Int64} (hms : 0 ≤ ms) (offers : List Offer) :
    (course (some (.window (.duration ms))) offers).groups.length ≤ (letIn offers).length ∧
      (course (some (.window (.duration ms))) offers).retained =
        (letIn offers).drop (course (some (.window (.duration ms))) offers).groups.length := by
  induction offers using List.reverseRecOn with
  | nil => exact ⟨Nat.le_refl 0, rfl⟩
  | append_singleton offers o ih =>
    obtain ⟨event, admitted⟩ := o
    obtain ⟨hk, hretained⟩ := ih
    rw [course_concat]
    cases admitted with
    | false =>
      rw [answer_rejected, letIn_rejected]
      simpa [handedAgain] using ⟨hk, hretained⟩
    | true =>
      obtain ⟨head, -, hanswer⟩ := answer_time_window hms hk hretained event
      rw [hanswer, letIn_admitted]
      split
      · simpa using hk
      · simpa using Nat.le_succ_of_le hk

theorem slidesByTime {ms : Int64} (hms : 0 ≤ ms) (offers : List Offer) : SlidesByTime ms offers := by
  obtain ⟨hk, hretained⟩ := time_window_retained hms offers
  exact ⟨hretained, answer_time_window hms hk hretained, fun event => answer_rejected⟩

/-- A window hands on the events let in without a gap and in their order, and begins with each of them in
turn. -/
theorem windows_slide {n : Nat} {ms : Int64} (hn : 1 ≤ n) (hms : 1 ≤ ms) (offers : List Offer) :
    SlidesByCount n offers ∧ SlidesByTime ms offers := by
  constructor
  · obtain ⟨k, rfl⟩ := Nat.exists_eq_add_of_le' hn
    exact slidesByCount k offers
  · exact slidesByTime (duration_nonneg hms) offers

/-- Groups of two events, and of a time that a later event ends although an earlier one comes behind it. -/
theorem windows_slide_backwards :
    let at_ (t : Int64) : Event := ⟨"", .null, t⟩
    let offers := [⟨at_ 5, true⟩, ⟨at_ 20, true⟩, ⟨at_ 90, false⟩, ⟨at_ 3, true⟩]
    (1 ≤ 2 ∧ (1 : Int64) ≤ 10) ∧ (SlidesByCount 2 offers ∧ SlidesByTime 10 offers) ∧
      (course (some (.window (.count 2))) offers).groups = [[at_ 5, at_ 20], [at_ 20, at_ 3]] ∧
      (course (some (.window (.duration 10))) offers).groups = [[at_ 5]] ∧
      (course (some (.window (.duration 10))) offers).retained = [at_ 20, at_ 3] := by
  intro at_ offers
  have hn : 1 ≤ 2 := by decide
  have hms : (1 : Int64) ≤ 10 := by decide
  have hslides := windows_slide hn hms offers
  have hgroups : (course (some (.window (.duration 10))) offers).groups = [[at_ 5]] := by decide +kernel
  have hretained := hslides.2.retained
  rw [hgroups] at hretained
  exact ⟨⟨hn, hms⟩, hslides, hslides.1.groups, hgroups, hretained⟩

end EventRules.Chain
