import StoryScript.Document
import StoryScript.Template

/-! Libraries of loaded stories, and how they are built from files. No two stories of a library
have the same id, and the library does not depend on how its files are named or ordered. -/
namespace StoryScript

/-- Stories by their ids. -/
abbrev Library := Table Template

namespace Library

/-- The library with one more story, whose id must be new. -/
def add (l : Library) (t : Template) : Except Fault Library :=
  if l.contains t.storyId then .error (.ofCause (.storyKnown t.storyId))
  else .ok (l.insert t.storyId t)

/-- Adds the stories of a file in the order in which they stand there. -/
def addDocuments (voc : Vocabulary) (l : Library) :
    List Document → Except Fault (Reported Library)
  | [] => .ok (pure l)
  | d :: r => do
    let t := d.load voc
    let rest ← addDocuments voc (← l.add t.result) r
    return ⟨rest.result, t.faults ++ rest.faults⟩

def addFile (voc : Vocabulary) (l : Library) (source : String) : Except Fault (Reported Library) := do
  addDocuments voc l (← Document.parseAll source)

/-- Adds the stories of files one after another. Every fault is said of its file; the first that
keeps a story out of the library ends the building. -/
def addFiles (voc : Vocabulary) (l : Library) :
    List (String × String) → Except Fault (Reported Library)
  | [] => .ok (pure l)
  | (path, source) :: r => do
    let added ← (l.addFile voc source).mapError (.inFile path)
    let rest ← addFiles voc added.result r
    return ⟨rest.result, added.faults.map (.inFile path) ++ rest.faults⟩

/-- The library of the stories in some files, read in ascending order of their paths. -/
def ofFiles (voc : Vocabulary) (files : Table String) : Except Fault (Reported Library) :=
  addFiles voc ∅ files.entries

/-- The stories that a program starts with: those that are asked for, or else `main`. -/
def entryStories (l : Library) (asked : List String) : Except Fault (List String) :=
  if asked.isEmpty then
    if l.contains "main" then .ok ["main"] else .error (.ofCause .noMainStory)
  else
    match asked.find? (!l.contains ·) with
    | some id => .error (.ofCause (.entryUnknown id))
    | none => .ok asked

end Library
end StoryScript
