import StoryScript.Instance

/-! The board that commands see while stories run: how many stories and handlers there were at the
beginning of the tick, counting also what has been asked for since, and the requests that wait for
the next tick. -/
namespace StoryScript

/-- A board. The owners of a message are the stories that handle it. -/
structure Board where
  stories : Table Nat := ∅
  handlers : Table Nat := ∅
  owners : Table Nat := ∅
  requests : List Request := []

namespace Board

def count (t : Table Nat) (k : String) : Nat := (t.find? k).getD 0

/-- The counts with some more of a name. -/
def bump (t : Table Nat) (k : String) (n : Nat) : Table Nat := t.insert k (count t k + n)

/-- Counts what a story adds to the board. -/
def countInstance (b : Board) (i : Instance) : Board :=
  { b with
    stories := bump b.stories i.storyId 1
    handlers := i.template.handlerIds.foldl (fun t m => bump t m (i.handlerCount m)) b.handlers
    owners := i.template.handlerIds.foldl (fun t m => bump t m 1) b.owners }

/-- Counts everything anew. Stories that are terminated do not count. -/
def refresh (b : Board) (is : List Instance) : Board :=
  (is.filter (!·.terminated)).foldl countInstance { requests := b.requests }

/-- Takes a request, and counts what it asks for. A message counts once for every owner. -/
def ask (r : Request) (b : Board) : Board :=
  let b := { b with requests := b.requests ++ [r] }
  match r with
  | .start id => { b with stories := bump b.stories id 1 }
  | .stop id => { b with stories := b.stories.insert id 0 }
  | .send m _ _ => { b with handlers := bump b.handlers m (count b.owners m) }
  | .pause _ _ | .pauseHandlers _ _ => b

theorem count_bump (t : Table Nat) (k j : String) (n : Nat) :
    count (bump t k n) j = if j = k then count t k + n else count t j := by
  simp only [count, bump, Table.find?_insert]
  split <;> rfl

@[simp] theorem requests_ask (r : Request) (b : Board) :
    (b.ask r).requests = b.requests ++ [r] := by
  cases r <;> rfl

end Board

/-- The board, and the functions of the host. -/
structure Surroundings (η : Type) where
  board : Board
  functions : η

instance {η : Type} [HostFunctions η] : World (Surroundings η) where
  ask r w := { w with board := w.board.ask r }
  storyCount w id := Board.count w.board.stories id
  handlerCount w m := Board.count w.board.handlers m
  call name args w :=
    let (answer, functions) := HostFunctions.call name args w.functions
    (answer, { w with functions })

end StoryScript
