import StoryScript.Command

/-! What happens while commands run. The effects of a run are what can be seen of it from outside;
its events also tell when commands began, were run and were over. -/
namespace StoryScript

/-- What a command asks of whatever runs the stories. It is granted at the next tick. -/
inductive Request where
  | start (story : String)
  | stop (story : String)
  | pause (story : String) (paused : Bool)
  | send (message : String) (args : List Value) (concurrent : Bool)
  | pauseHandlers (message : String) (paused : Bool)

/-- Something that went wrong without ending a run. -/
inductive Warning where
  | stepsSpent (command : String)
  | noTarget
  | noStory
  | callFailed (function : String) (fault : Fault)
  | startFailed (fault : Fault)

namespace Warning

def text : Warning → String
  | stepsSpent _ => "step budget exhausted, suspending until next tick"
  | noTarget => "assign without a target variable is skipped"
  | noStory => "startstory without a story id is skipped"
  | callFailed _ _ => "host call failed, skipping"
  | startFailed _ => "startstory skipped"

/-- The particulars of a warning, by name. -/
def particulars : Warning → List (String × String)
  | stepsSpent c => [("command", c)]
  | noTarget | noStory => []
  | callFailed g f => [("function", g), ("code", f.code), ("message", f.message)]
  | startFailed f => [("code", f.code), ("message", f.message)]

end Warning

/-- What can be seen of a run. -/
inductive Effect where
  | wrote (name : String) (v : Value)
  | requested (request : Request)
  | called (function : String) (args : List Value)
  | posted (message : String) (args : List Value)
  | terminated
  | said (line : String)
  | warned (warning : Warning)

/-- What happens in a run. A command begins once; every time it is run it is entered and left, and
a repetition is entered around the commands of its rounds. It is pending as long as it is not over. -/
inductive Event where
  | effect (e : Effect)
  | began (c : Command)
  | entered
  | left (pending : Bool)
  | round (item : Value)

def Event.effect? : Event → Option Effect
  | effect e => some e
  | _ => none

namespace Event

@[simp] theorem effect?_effect (e : Effect) : (effect e).effect? = some e := rfl
@[simp] theorem effect?_began (c : Command) : (began c).effect? = none := rfl
@[simp] theorem effect?_entered : entered.effect? = none := rfl
@[simp] theorem effect?_left (b : Bool) : (left b).effect? = none := rfl
@[simp] theorem effect?_round (v : Value) : (round v).effect? = none := rfl

end Event

def effectsOf (es : List Event) : List Effect := es.filterMap Event.effect?

@[simp] theorem effectsOf_nil : effectsOf [] = [] := rfl

@[simp] theorem effectsOf_cons (e : Event) (es : List Event) :
    effectsOf (e :: es) = e.effect?.toList ++ effectsOf es := by
  cases e <;> rfl

@[simp] theorem effectsOf_append (es fs : List Event) :
    effectsOf (es ++ fs) = effectsOf es ++ effectsOf fs := List.filterMap_append

@[simp] theorem effectsOf_map_effect (es : List Effect) : effectsOf (es.map .effect) = es := by
  simp [effectsOf, List.filterMap_map, Function.comp_def]

/-- Repeating what nobody can see is not seen either. -/
theorem effectsOf_replicate {e : Event} (h : e.effect? = none) (n : Nat) :
    effectsOf (List.replicate n e) = [] := by
  simp [effectsOf, h]

def Effect.post? : Effect → Option (String × List Value)
  | posted m args => some (m, args)
  | _ => none

def Effect.terminates : Effect → Bool
  | terminated => true
  | _ => false

end StoryScript
