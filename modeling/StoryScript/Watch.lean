import StoryScript.World

/-! Waits under way. A wait for some time is over when enough time has passed. A wait for a goal is
over when the goal is met or, if it has a limit above zero, when that much time has passed without
it; which of the two it was decides what is assigned. -/
namespace StoryScript

/-- What a look at the goal of a wait comes to. -/
inductive Verdict where
  | satisfied
  | pending
  | timedOut
  deriving DecidableEq

/-- How far a wait has come: the time it has spent, and when it began if that matters to it. -/
structure Watch where
  elapsed : Int := 0
  start : Option Int := none
  deriving DecidableEq

/-- Looks once at a goal. A wait that looks at what came since its beginning first notes when that
was. No time is counted for a look that finds the goal met. The time is counted without bounds; `poll?`
counts it in 64 bits. -/
def Watch.poll (w : Watch) (sinceStart : Bool) (now delta limit : Int)
    (met : Option Int → Bool) : Verdict × Watch :=
  let start := if sinceStart then some (w.start.getD now) else w.start
  if met start then (.satisfied, { w with start })
  else
    let elapsed := w.elapsed + delta
    (if 0 < limit ∧ limit ≤ elapsed then .timedOut else .pending, ⟨elapsed, start⟩)

/-- Looks once at a goal as far as the time can be counted in 64 bits. A look that would bring the time
out of their range breaks off. -/
def Watch.poll? (w : Watch) (sinceStart : Bool) (now delta limit : Int)
    (met : Option Int → Bool) : Option (Verdict × Watch) :=
  let (v, w) := w.poll sinceStart now delta limit met
  if Numeral.fitsInt64 w.elapsed then some (v, w) else none

/-- The time after which a wait is given up; at zero or below it never is. -/
def Outcomes.limit (o : Outcomes Value) : Int :=
  match o.timeout with
  | some t => t.limit.toInt.toInt
  | none => 0

/-- What a wait assigns at a verdict. -/
def Outcomes.assigned (o : Outcomes Value) : Verdict → Option (Assignment Value)
  | .satisfied => o.success
  | .pending => none
  | .timedOut => o.timeout.map (·.assignment)

/-- Assigns what a wait assigns at a verdict. -/
def Outcomes.run {ω : Type} (o : Outcomes Value) (v : Verdict) (s : Stage ω) :
    Stage ω × List Effect :=
  match o.assigned v with
  | some a => a.run s
  | none => (s, [])

/-- Whether a goal concerns what came since the wait began. -/
def Goal.sinceStart {α : Type} : Goal α → Bool
  | message _ => true
  | stories _ | handlers _ => false

/-- Whether a goal is met, for a wait that began at some time. -/
def Goal.met {ω : Type} [World ω] (g : Goal Value) (s : Stage ω) (start : Option Int) : Bool :=
  match g with
  | stories ids => sumOf (World.storyCount s.world) (namesOf ids) = 0
  | handlers ids => sumOf (World.handlerCount s.world) (namesOf ids) = 0
  | message ids =>
    match start with
    | none => false
    | some t => (namesOf ids).any fun id => (s.scope.triggered? id).any (t < ·)

/-- Runs a wait for a goal once, and tells whether it is pending. -/
def Await.run {ω : Type} [World ω] (a : Await Value) (watch : Watch) (now delta : Int)
    (s : Stage ω) : Bool × Watch × Stage ω × List Effect :=
  let (v, watch) := watch.poll a.goal.sinceStart now delta a.outcomes.limit (a.goal.met s)
  let (s, es) := a.outcomes.run v s
  (v = .pending, watch, s, es)

/-- A command that waits. -/
inductive Waiting where
  | time (limit : Operand) (elapsed : Int)
  | goal (wait : Await Operand) (watch : Watch)

namespace Waiting

def command : Waiting → Command
  | time limit _ => .wait limit
  | goal wait _ => .await wait

/-- Runs a wait once, its operands being read as given. -/
def run {ω : Type} [World ω] (w : Waiting) (now delta : Int) (read : Operand → Value)
    (s : Stage ω) : Bool × Waiting × Stage ω × List Effect :=
  match w with
  | time limit elapsed =>
    let elapsed := elapsed + delta
    (elapsed < (read limit).toInt.toInt, .time limit elapsed, s, [])
  | goal wait watch =>
    let (pending, watch, s, es) := (wait.map read).run watch now delta s
    (pending, .goal wait watch, s, es)

end Waiting
end StoryScript
