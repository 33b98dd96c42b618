import StoryScript.Command

/-! The words that a story may use: which command a name stands for, and which function. Several
names may stand for the same command. -/
namespace StoryScript

/-- The commands that a name can stand for. -/
inductive Verb where
  | assign
  | wait
  | loop
  | foreach
  | localMessage
  | terminate
  | log
  | startStory
  | stopStory
  | waitStory
  | pauseStory (paused : Bool)
  | fireMessage (concurrent : Bool)
  | waitMessage
  | waitHandlers
  | pauseHandlers (paused : Bool)
  | hostCall
  deriving DecidableEq

namespace Verb

/-- The command of a verb before anything is known of its operands. -/
def blank : Verb → Command
  | assign => .act (.assign ⟨none, none⟩)
  | wait => .wait none
  | loop => .repeat (.times none) []
  | foreach => .repeat (.each []) []
  | localMessage => .act (.post none [])
  | terminate => .act .terminate
  | log => .act (.log [])
  | startStory => .act (.start none)
  | stopStory => .act (.stop none)
  | waitStory => .await ⟨.stories [], {}⟩
  | pauseStory p => .act (.pause [] p)
  | fireMessage c => .act (.send none [] c)
  | waitMessage => .await ⟨.message [], {}⟩
  | waitHandlers => .await ⟨.handlers [], {}⟩
  | pauseHandlers p => .act (.pauseHandlers [] p)
  | hostCall => .act (.callHost none [] none)

def name (v : Verb) : String := v.blank.name

/-- The verbs that every story knows. -/
def builtin : List (String × Verb) :=
  [("assign", assign), ("wait", wait), ("sleep", wait), ("loop", loop), ("foreach", foreach),
   ("localmessage", localMessage), ("terminate", terminate), ("log", log),
   ("startstory", startStory), ("stopstory", stopStory), ("waitstory", waitStory),
   ("pausestory", pauseStory true), ("resumestory", pauseStory false),
   ("firemessage", fireMessage false), ("fireconcurrentmessage", fireMessage true),
   ("waitallmessage", waitMessage), ("waitallmessagehandler", waitHandlers),
   ("pauseallmessagehandler", pauseHandlers true),
   ("resumeallmessagehandler", pauseHandlers false), ("hostcall", hostCall)]

end Verb

/-- The names of commands and of functions. -/
structure Vocabulary where
  verbs : Table Verb
  functions : Functions

namespace Vocabulary

/-- The vocabulary that every story knows. -/
def builtin : Vocabulary := ⟨.ofList Verb.builtin, .builtin⟩

instance : Inhabited Vocabulary := ⟨builtin⟩

end Vocabulary
end StoryScript
