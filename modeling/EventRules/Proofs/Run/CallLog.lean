import EventRules.Evaluation

/-!
# The calls of an evaluation

An evaluation calls fragments, and these call others before they answer. The log of an evaluation holds
its calls in the order in which they begin, each one with what it answers in the end: a call stands in
front of those that are made inside it. Every part of the evaluator has its log, which follows the
evaluator from session to session and stops where that one fails.
-/

namespace EventRules
set_option autoImplicit false

open Routine

/-- A call of a fragment, and what the fragment answers. -/
structure CallRecord where
  fragment : String
  answer : Except RunError Bool

/-- The calls that a part of an evaluation makes when it begins with a session. -/
abbrev CallLog : Type := Session → List CallRecord

/-- The calls of code for a value under test. -/
abbrev EvaluatorLog : Type := Code → Value → Frame → CallLog

namespace CallLog

def silent : CallLog := fun _ => []

/-- The calls of a sequence; its second part makes some only if the first one, which is `m`, answers. -/
def followed {α : Type} (first : CallLog) (m : Run α) (rest : α → CallLog) : CallLog := fun s =>
  first s ++ match m.run s with
    | (.ok a, t) => rest a t
    | (.error _, _) => []

end CallLog

open CallLog

/-- A value of the left side with which the right side is skipped. -/
def BinaryOp.decidedBy : BinaryOp → Value → Bool
  | .and, v => !v.asBool
  | .or, v => v.asBool
  | _, _ => false

def Code.log (call : String → Nat → Frame → Run Bool) (calls : String → Nat → Frame → CallLog)
    (code : Code) (subject : Value) (frame : Frame) : CallLog :=
  match code with
  | .literal _ | .subject | .filter _ => silent
  | .binary op left right =>
    (left.log call calls subject frame).followed (left.evaluate call subject frame) fun v =>
      if op.decidedBy v then silent else right.log call calls subject frame
  | .not inner => inner.log call calls subject frame
  | .step _ operand => operand.log call calls subject frame
  | .compare _ operand => operand.log call calls subject frame
  | .call fragment index => calls fragment index frame

def Test.log (log : EvaluatorLog) (subject : Value) (frame : Frame) : Test → CallLog
  | .condition code => log code subject frame
  | .extension _ => silent

namespace Chain

def admitsLog (eval : Evaluator) (log : EvaluatorLog) (frame : Frame) : List Test → CallLog
  | [] => silent
  | test :: tests =>
    (test.log log frame.event.value frame).followed (admits eval frame [test]) fun passed =>
      if passed then admitsLog eval log frame tests else silent

def countLog (eval : Evaluator) (log : EvaluatorLog) (condition : Code) (frame : Frame) :
    List Event → CallLog
  | [] => silent
  | e :: es =>
    (log condition e.value frame).followed (eval.holds condition e.value frame) fun _ =>
      countLog eval log condition frame es

def aggregateLog (eval : Evaluator) (log : EvaluatorLog) (how : Aggregation) (batch : List Event)
    (frame : Frame) : CallLog :=
  match how with
  | .hitRate condition => countLog eval log condition frame batch
  | _ => silent

/-- The calls of a chain with the state `own`. -/
def log (eval : Evaluator) (log : EvaluatorLog) (name : String) (plan : Plan) (frame : Frame)
    (own : State) : CallLog :=
  silent.followed (checkTake name plan.take) fun _ =>
    (admitsLog eval log frame plan.filters).followed (admits eval frame plan.filters) fun admitted =>
      let handed := (retain plan.sampler own.retained frame.event admitted).2
      match handed.bind (takeFrom plan.take) with
      | none => silent
      | some batch =>
        (aggregateLog eval log plan.aggregation batch frame).followed
          (aggregate eval plan.aggregation batch frame) fun value => plan.verdict.log log value frame

end Chain

def Arrow.log (log : EvaluatorLog) (plan : Arrow.Plan) (frame : Frame) (own : Arrow.State) : CallLog :=
  match plan.stages[own.pointer]? with
  | none => silent
  | some stage => log stage frame.event.value { frame with anchor := own.anchor }

/-- The change of the reading that a slope tests, if it has two readings and some time between them. -/
def Monitor.change? (unit : Int64) (previous : Option (Float × Int64)) (event : Event) : Option Float := do
  let current ← event.value.toNumber?
  let (value, at_) ← previous
  let elapsed := Number.subClamped event.timestamp at_
  if elapsed = 0 then none
  else return (current - value) / (Float.ofInt elapsed.toInt / Float.ofInt unit.toInt)

def Monitor.log (log : EvaluatorLog) (plan : Monitor.Plan) (frame : Frame) (own : Monitor.State) :
    CallLog :=
  match plan with
  | .count condition _ _ => log condition frame.event.value frame
  | .keep condition _ => log condition frame.event.value frame
  | .delay _ => silent
  | .slope condition unit =>
    let previous := match own with
      | .slope previous => previous
      | _ => none
    match Monitor.change? unit previous frame.event with
    | none => silent
    | some change => log condition (.float change) frame

/-- What a fragment finds when its body begins. -/
def Session.entered (s : Session) (name : String) : Session :=
  ⟨s.env.resetState name, .called name :: s.trace⟩

/-- The calls that are made inside a call of the fragment. -/
def Fragment.log (eval : Evaluator) (log : EvaluatorLog) (f : Fragment) (frame : Frame) : CallLog :=
  fun s =>
    match f.body, (s.env.states.get? f.name).getD f.body.initial with
    | .chain plan, .chain own => Chain.log eval log f.name plan frame own (s.entered f.name)
    | .arrow plan, .arrow own => Arrow.log log plan frame own (s.entered f.name)
    | .monitor plan, .monitor own => Monitor.log log plan frame own (s.entered f.name)
    | _, _ => []

/-- A call, and behind it the calls inside it. -/
def callLog : (depth : Nat) → String → Nat → Frame → CallLog
  | 0, _, _, _ => silent
  | depth + 1, name, index, frame =>
    match frame.fragments[index]? with
    | some f =>
      if f.name = name then fun s =>
        let eval := Code.evaluate (callFragment depth)
        ⟨name, ((f.run eval frame).run s).1⟩
          :: f.log eval (Code.log (callFragment depth) (callLog depth)) frame s
      else silent
    | none => silent

def evaluateLog : EvaluatorLog := fun code subject frame =>
  code.log (callFragment frame.fragments.length) (callLog frame.fragments.length) subject frame

end EventRules
