import StoryScript.Command.Load

/-! Stories that have been loaded. -/
namespace StoryScript

/-- A story that has been loaded: the commands of each message that it handles. -/
structure Template where
  storyId : String
  persistent : Bool
  handlers : Table (List Command)

namespace Template

/-- The commands that answer a message. -/
def handler? (t : Template) (message : String) : Option (List Command) := t.handlers.find? message

def hasHandler (t : Template) (message : String) : Bool := t.handlers.contains message

/-- The messages that a story handles, in ascending order. -/
def handlerIds (t : Template) : List String := t.handlers.keys

end Template

namespace Document

/-- Loads handlers into a table; a message keeps the handler that comes first. -/
def loadHandlers (voc : Vocabulary) (story : String) :
    List HandlerDecl → Table (List Command) → Reported (Table (List Command))
  | [], t => pure t
  | h :: r, t =>
    if t.contains h.messageId then do
      .report (.located h.span (.handlerRepeated story h.messageId))
      loadHandlers voc story r t
    else do
      let commands ← Command.ofBlock voc h.body
      loadHandlers voc story r (t.insert h.messageId commands)

def load (voc : Vocabulary) (d : Document) : Reported Template := do
  return ⟨d.storyId, d.persistent, ← loadHandlers voc d.storyId d.handlers ∅⟩

end Document

end StoryScript
