import StoryScript.Table
import StoryScript.Node
import StoryScript.Markup.Reference

/-! Elements of markup and their reading from text. The reader keeps a stack of the elements that
are open, reads one item of markup at a time, and ends where nothing is open any more. -/
namespace StoryScript.Markup

/-- An element: its name and attributes without namespaces, the elements directly inside it, and
the text directly inside it. -/
structure Element where
  name : String
  attributes : Table String
  children : List Element
  text : String
  span : Span

instance : Inhabited Element := ⟨⟨"", ∅, [], "", .synthetic⟩⟩

def Element.attribute? (e : Element) (name : String) : Option String := e.attributes.find? name

/-- The namespaces that prefixes stand for, the nearest declaration first; the empty prefix is the
default. -/
abbrev Namespaces := List (String × String)

def namespaceOf? (n : Namespaces) (ns : String) : Option String := Table.lookup ns n

def markupUri : String := "http://www.w3.org/XML/1998/namespace"
def declarationsUri : String := "http://www.w3.org/2000/xmlns/"

structure RawAttribute where
  name : Scan.QName
  value : String
  place : Position

/-- An element whose end has not been read. Children and text are in reverse. -/
structure OpenElement where
  name : Scan.QName
  attributes : Table String
  namespaces : Namespaces
  start : Position
  children : List Element
  text : List (List Char)

def spanOf (p q : Position) : Span := ⟨p.line, p.column, q.line, q.column⟩

def OpenElement.close (e : OpenElement) (finish : Position) : Element :=
  { name := e.name.name, attributes := e.attributes, children := e.children.reverse
    text := .ofList e.text.reverse.flatten, span := spanOf e.start finish }

/-- What has been read: the open elements, innermost first, and the root once it is closed. -/
structure Reading where
  stack : List OpenElement
  root : Option Element

def Reading.add (r : Reading) (e : Element) : Reading :=
  match r.stack with
  | [] => { r with root := some e }
  | o :: s => { r with stack := { o with children := e :: o.children } :: s }

def Reading.addText (r : Reading) (t : List Char) : Reading :=
  match r.stack with
  | [] => r
  | o :: s => { r with stack := { o with text := t :: o.text } :: s }

/-- The namespaces in force where the next element begins. -/
def Reading.namespaces (r : Reading) : Namespaces :=
  match r.stack with
  | [] => []
  | o :: _ => o.namespaces

/-- Adds an attribute of a tag to its declarations or to its attributes. -/
def sortAttribute (declared : Namespaces) (attributes : List RawAttribute) (a : RawAttribute) :
    Except Problem (Namespaces × List RawAttribute) :=
  if a.name.ns = "xmlns" then
    if a.value = declarationsUri then .error (.declarationUri a.place)
    else if a.name.name = "xml" then
      if a.value = markupUri then .ok (declared, attributes) else .error (.wrongReservedUri a.place)
    else if a.value = markupUri then .error (.reservedUri a.place)
    else if (namespaceOf? declared a.name.name).isSome then
      .error (.repeatedNamespace a.name.name a.place)
    else .ok (declared ++ [(a.name.name, a.value)], attributes)
  else if a.name.name = "xmlns" then
    if a.value = markupUri then .error (.reservedUri a.place)
    else if a.value = declarationsUri then .error (.declarationUri a.place)
    else .ok (declared ++ [("", a.value)], attributes)
  else .ok (declared, attributes ++ [a])

/-- The namespace of an attribute: none without a prefix. -/
def attributeNamespace (n : Namespaces) (a : RawAttribute) : Except Problem (Option String) :=
  if a.name.ns = "xml" then .ok (some markupUri)
  else if a.name.ns = "" then .ok none
  else match namespaceOf? n a.name.ns with
    | some uri => .ok (some uri)
    | none => .error (.unknownNamespace a.name.ns a.place)

/-- The attributes by local name, no two of which may have one name in one namespace. -/
def resolveAttributes (n : Namespaces) :
    List (Option String × String) → Table String → List RawAttribute → Except Problem (Table String)
  | _, t, [] => .ok t
  | seen, t, a :: r => do
    let key := (← attributeNamespace n a, a.name.name)
    if seen.contains key then .error (.repeatedAttribute a.name.name a.place)
    else resolveAttributes n (key :: seen) (t.insert a.name.name a.value) r

namespace Scan

inductive TagEnd where
  | opened
  | closed
  | cut
  deriving DecidableEq

/-- One step inside a tag: its end, or one more attribute. -/
def tagItem (declared : Namespaces) (attributes : List RawAttribute) :
    Scan (Option TagEnd × Namespaces × List RawAttribute) := do
  if ← atEnd then return (some .cut, declared, attributes)
  let spaced := ((← rest).head?.map isSpace).getD false
  skipSpaces
  let start ← here
  match ← current with
  | '/' =>
    skip 1
    expect '>'
    return (some .closed, declared, attributes)
  | '>' =>
    skip 1
    return (some .opened, declared, attributes)
  | c =>
    if !spaced then throw (.expectedOneOf "a whitespace" (firstByte c) start)
    let (name, raw) ← attributePair
    let value ← attributeValue raw
    let (declared, attributes) ← sortAttribute declared attributes ⟨name, value, start⟩
    return (none, declared, attributes)

/-- The rest of a tag after its name. Every attribute takes characters from the text. -/
def tagRest (declared : Namespaces) (attributes : List RawAttribute) (k : Cursor) :
    Except Problem ((TagEnd × Namespaces × List RawAttribute) × Cursor) :=
  match tagItem declared attributes k with
  | .error e => .error e
  | .ok ((some stop, d, a), k') => .ok ((stop, d, a), k')
  | .ok ((none, d, a), k') =>
    if k'.rest.length < k.rest.length then tagRest d a k' else .error .endOfText
termination_by k.rest.length

def openTag (r : Reading) : Scan Reading := do
  let start ← here
  skip 1
  let nameStart ← here
  let name ← qualifiedName
  if name.ns = "xmlns" then throw (.reservedPrefix nameStart)
  let (stop, declared, attributes) ← tagRest [] []
  if stop = .cut then return r
  let namespaces := declared ++ r.namespaces
  let table ← resolveAttributes namespaces [] ∅ attributes
  if name.ns ≠ "" && (namespaceOf? namespaces name.ns).isNone then
    throw (.unknownNamespace name.ns nameStart)
  let element : OpenElement := ⟨name, table, namespaces, start, [], []⟩
  if stop = .closed then return r.add (element.close (← here))
  return { r with stack := element :: r.stack }

def closeTag (r : Reading) : Scan Reading := do
  let start ← here
  skip 2
  let name ← qualifiedName
  skipSpaces
  expect '>'
  match r.stack with
  | [] => return r
  | o :: s =>
    if o.name = name then return { r with stack := s }.add (o.close (← here))
    else throw (.closeMismatch o.name.toText name.toText start)

/-- Whether a text has two hyphens in a row, or one at its end. -/
def hasDoubleHyphen : List Char → Bool
  | [] => false
  | '-' :: r => r.isEmpty || r.head? = some '-' || hasDoubleHyphen r
  | _ :: r => hasDoubleHyphen r

def comment : Scan Unit := do
  let start ← here
  skip 4
  let text ← takeUntil ("-->".toList.isPrefixOf ·)
  expectText "-->"
  if hasDoubleHyphen text then throw (.badComment start)

def instruction : Scan Unit := do
  if ← startsWith "<?xml " then throw (.unexpectedDeclaration (← here))
  skip 2
  let _ ← plainName
  skipSpaces
  let _ ← takeUntil ("?>".toList.isPrefixOf ·)
  expectText "?>"

def hasSectionEnd : List Char → Bool
  | [] => false
  | c :: r => "]]>".toList.isPrefixOf (c :: r) || hasSectionEnd r

/-- Reads one item inside the innermost open element. -/
def contentItem (r : Reading) : Scan Reading := do
  match ← rest with
  | '<' :: '!' :: _ =>
    if ← startsWith "<!--" then
      comment
      return r
    else if ← startsWith "<![CDATA[" then
      skip 9
      let text ← takeUntil ("]]>".toList.isPrefixOf ·)
      expectText "]]>"
      return r.addText (sectionValue text)
    else throw (.unknownToken (← here))
  | '<' :: '?' :: _ =>
    instruction
    return r
  | '<' :: '/' :: _ => closeTag r
  | ['<'] => throw (.unknownToken (← here))
  | '<' :: _ => openTag r
  | _ =>
    let start ← here
    let text ← takeUntil fun t => t.head? = some '<'
    if hasSectionEnd text then throw (.sectionEndInText (← here))
    return r.addText (← textValue ⟨text, start⟩)

/-- Reads items until no element is open or the text ends. Every item takes characters. -/
def content (r : Reading) (k : Cursor) : Except Problem (Reading × Cursor) :=
  if r.stack.isEmpty || k.rest.isEmpty then .ok (r, k) else
  match contentItem r k with
  | .error e => .error e
  | .ok (r', k') =>
    if k'.rest.length < k.rest.length then content r' k' else .error .endOfText
termination_by k.rest.length

/-- Reads blanks, comments and instructions outside the root. -/
def misc (k : Cursor) : Except Problem (Unit × Cursor) :=
  match one k with
  | .error e => .error e
  | .ok (false, k') => .ok ((), k')
  | .ok (true, k') => if k'.rest.length < k.rest.length then misc k' else .ok ((), k')
termination_by k.rest.length
where
  one : Scan Bool := do
    skipSpaces
    if ← startsWith "<!--" then
      comment
      return true
    else if ← startsWith "<?" then
      instruction
      return true
    else return false

/-- Reads the blanks between the parts of a declaration. -/
def declarationSpaces : Scan Unit := do
  match ← rest with
  | [] => pure ()
  | c :: _ =>
    if isSpace c then skipSpaces
    else if ← startsWith "?>" then pure ()
    else throw (.expectedOneOf "a whitespace" (firstByte c) (← here))

/-- Reads the declaration at the beginning of a document; a version is required. -/
def declaration : Scan Unit := do
  skip 5
  declarationSpaces
  unless ← startsWith "version" do expectText "version"
  let _ ← attributePair
  declarationSpaces
  if ← startsWith "encoding" then
    let _ ← attributePair
    declarationSpaces
  if ← startsWith "standalone" then
    let _ ← attributePair
  skipSpaces
  expectText "?>"

/-- Reads a whole document and answers its root. -/
def document : Scan Element := do
  if (← rest).head? = some '\uFEFF' then skip 1
  if ← startsWith "<?xml " then declaration
  misc
  if ← startsWith "<!DOCTYPE" then throw .doctype
  let mut reading : Reading := ⟨[], none⟩
  if (← rest).head? = some '<' then
    reading ← openTag reading
    reading ← content reading
  misc
  unless ← atEnd do throw (.unknownToken (← here))
  match reading.root, reading.stack with
  | some root, [] => return root
  | _, [] => throw .noRoot
  | _, _ => throw .unclosedRoot

end Scan

def Element.parse (s : String) : Except Problem Element :=
  (Scan.document (Cursor.start s)).map (·.1)

end StoryScript.Markup
