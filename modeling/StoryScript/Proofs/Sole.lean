import StoryScript.Proofs.Crossing
import StoryScript.Proofs.Naming

/-! Scripts that consist of a reference and nothing else. Such a script reads the same as the
reference does outside of scripts, but for an argument whose index is too large: outside of scripts
it is at fault, and in a script it is the first argument. -/
namespace StoryScript
open Numeral

namespace Script

/-! ### Scripts of one word -/

theorem toNat_of_isWordStart {c : Char} (h : isWordStart c = true) :
    65 ≤ c.toNat ∧ c.toNat ≤ 90 ∨ 97 ≤ c.toNat ∧ c.toNat ≤ 122 ∨ c.toNat = 95 := by
  simp only [isWordStart, Bool.or_eq_true, Pattern.isAlpha_iff, decide_eq_true_eq] at h
  obtain (h | h) | rfl := h
  · exact .inl h
  · exact .inr (.inl h)
  · exact .inr (.inr rfl)

theorem isBlank_of_isWordStart {c : Char} (h : isWordStart c = true) : isBlank c = false := by
  have hn := toNat_of_isWordStart h
  unfold isBlank
  generalize c.toNat = n at hn
  simp only [Bool.or_eq_false_iff, Bool.and_eq_false_iff, decide_eq_false_iff_not]
  omega

theorem isDigit_of_isWordStart {c : Char} (h : isWordStart c = true) : isDigit c = false := by
  have hn := toNat_of_isWordStart h
  rw [Bool.eq_false_iff, ne_eq, Pattern.isDigit_iff]
  rintro ⟨-, hhigh⟩
  have hhigh : c.toNat ≤ 57 := hhigh
  omega

theorem lexemes_word {w : List Char} (hw : isWord w = true) (hname : isName w = true)
    (operand : Bool) : lexemes operand w = .ok [.word (.ofList w)] := by
  cases w with
  | nil => cases hw
  | cons c r =>
    simp only [isWord, Bool.and_eq_true] at hw
    obtain ⟨hc, hr⟩ := hw
    have htake : r.takeWhile isWordPart = r :=
      List.takeWhile_eq_self_iff.2 (List.all_eq_true.1 hr)
    have hdrop : r.dropWhile isWordPart = [] :=
      List.dropWhile_eq_nil_iff.2 (List.all_eq_true.1 hr)
    have hat : lexemeAt operand c r = .ok (some (.word (.ofList (c :: r))), []) := by
      unfold lexemeAt
      dsimp only
      rw [if_neg (Bool.eq_false_iff.1 (isBlank_of_isWordStart hc)),
        if_neg (Bool.eq_false_iff.1 (isDigit_of_isWordStart hc)), if_pos hc, htake, hdrop,
        if_pos hname]
    have hshort : ([] : List Char).length < (c :: r).length := Nat.succ_pos _
    have hend (operand : Bool) : lexemes operand [] = .ok [] := by rw [lexemes.eq_def]
    rw [lexemes.eq_def]
    dsimp only
    rw [hat]
    dsimp only
    rw [if_pos hshort, hend]
    rfl

namespace Read
variable {s : String}

/-- A word that names neither a keyword nor a function is a variable. -/
theorem primary_word (hk : s ∉ keywords) (hf : s ∉ functionWords) (fuel level : Nat) :
    primary (fuel + 1) level [.word s] = .ok (.variable s, []) := by
  have other {k : String} (h : k ∈ keywords) : s ≠ k := by
    rintro rfl
    exact hk h
  have hbool : ¬(s = "true" || s = "false") = true := by
    simp [other (k := "true") (by decide +kernel), other (k := "false") (by decide +kernel)]
  have hif : s ≠ "if" := other (by decide +kernel)
  have hk : ¬keywords.contains s = true := by simpa using hk
  have hf : ¬functionWords.contains s = true := by simpa using hf
  change (if s = "true" || s = "false" then _ else if s = "if" then _
    else if keywords.contains s then _ else _ : Read Expr) [Lexeme.word s] = _
  rw [if_neg hbool, if_neg hif, if_neg hk]
  change (if functionWords.contains s then _ else _ : Read Expr) [] = _
  rw [if_neg hf]
  rfl

theorem expression_word (hk : s ∉ keywords) (hf : s ∉ functionWords) (fuel : Nat) :
    expression (fuel + 4) 0 [.word s] = .ok (.variable s, []) := by
  have hunary : unary (fuel + 3) 1 [.word s] =
      (primary (fuel + 2) 1 [.word s]).bind fun p => suffixes (fuel + 2) 1 p.1 p.2 := rfl
  have hexpression : expression (fuel + 4) 0 [.word s] =
      (unary (fuel + 3) 1 [.word s]).bind fun p => binary (fuel + 3) 1 1 p.1 p.2 := rfl
  rw [hexpression, hunary, primary_word hk hf]
  rfl

end Read

theorem parse_word {w : List Char} (hw : isWord w = true) (hname : isName w = true)
    (hk : String.ofList w ∉ Read.keywords) (hf : String.ofList w ∉ Read.functionWords) :
    Expr.parse w = .ok (.variable (.ofList w)) := by
  have hread := Read.expression_word hk hf 12
  rw [Expr.parse, lexemes_word hw hname]
  change (Read.expression 16 0 [.word (.ofList w)]).bind _ = _
  rw [hread]
  rfl

/-! ### Symbols -/

variable {w : List Char} {s : Segment} {ref : Reference} {text : String}

/-- What the symbols of references begin with. -/
def symbolStarts : List (List Char) := [['v', '_'], ['i', 't'], ['a', 'r', 'g']]

theorem not_prefix_reserved : ∀ k ∈ Read.keywords ++ Read.functionWords, ∀ p ∈ symbolStarts,
    ¬p <+: k.toList := by decide +kernel

theorem isWordPart_of_isWordStart {c : Char} (h : isWordStart c = true) : isWordPart c = true := by
  simp only [isWordStart, Bool.or_eq_true] at h
  simp only [isWordPart, Char.isAlphanum, Bool.or_eq_true]
  exact h.imp_left .inl

theorem all_isWordPart (h : isWord w = true) : w.all isWordPart = true := by
  cases w with
  | nil => rfl
  | cons c r =>
    simp only [isWord, Bool.and_eq_true] at h
    rw [List.all_cons, isWordPart_of_isWordStart h.1, h.2, Bool.and_self]

theorem isWord_argumentSymbol (i : Nat) : isWord (argumentSymbol i) = true := by
  have digits : i.repr.toList.all isWordPart = true := by
    refine List.all_eq_true.2 fun c hc => ?_
    rw [Nat.toList_repr] at hc
    have hc : c.isDigit = true := Nat.isDigit_of_mem_toDigits (by decide) (by decide) hc
    simp [isWordPart, Char.isAlphanum, hc]
  exact digits

/-- The symbol of a reference is a word that is not reserved. -/
theorem symbol_of_spells (h : Spells w s) :
    isWord s.symbol = true ∧ isName s.symbol = true ∧ ∃ p ∈ symbolStarts, p <+: s.symbol := by
  cases h with
  | «variable» hname =>
    have hall := all_isWordPart hname
    exact ⟨hall, rfl, _, .head _, ⟨_, rfl⟩⟩
  | iterator => exact ⟨rfl, rfl, _, .tail _ (.head _), ⟨[], rfl⟩⟩
  | argument | overlong =>
    exact ⟨isWord_argumentSymbol _, rfl, _, .tail _ (.tail _ (.head _)), ⟨_, rfl⟩⟩

theorem scans_of_spells (h : Spells w s) : Scans w [s] := by
  have longest (v t : List Char) (s' : Segment) (hv : w ++ [] = v ++ t) (_ : Spells v s') :
      v.length ≤ w.length := by
    have hlength := congrArg List.length hv
    simp only [List.length_append, List.length_nil] at hlength
    omega
  simpa using Scans.reference h longest .nil

/-- The script that is a symbol and nothing else. -/
def sole (text : String) (s : Segment) : Script where
  source := text
  segments := [s]
  run bindings := ((Expr.variable (.ofList s.symbol)).eval bindings).mapError RunProblem.message

theorem compile_of_spells (h : Spells text.toList s) :
    compile .builtin text = .ok (sole text s) := by
  obtain ⟨hw, hname, p, hp, hprefix⟩ := symbol_of_spells h
  have free (k : String) (hk : k ∈ Read.keywords ++ Read.functionWords) :
      String.ofList s.symbol ≠ k := by
    rintro rfl
    exact not_prefix_reserved _ hk p hp (by rwa [String.toList_ofList])
  have hparse : Expr.parse s.symbol = .ok (.variable (.ofList s.symbol)) :=
    parse_word hw hname (fun hk => free _ (List.mem_append_left _ hk) rfl)
      fun hf => free _ (List.mem_append_right _ hf) rfl
  have htext : symbolText [s] = s.symbol := List.append_nil _
  have hread : Engine.builtin.read s.symbol = .ok (sole text s).run := by
    simp only [Engine.builtin, hparse]
    rfl
  unfold compile
  rw [scans_iff.1 (scans_of_spells h)]
  dsimp only
  rw [htext, hread]
  rfl

theorem exists_reference (h : Spells w s) : ∃ ref, s.reference? = some ref := by
  cases h <;> exact ⟨_, rfl⟩

/-- A script that is a symbol has the value that its reference stands for. -/
theorem evaluate_symbol (h : s.reference? = some ref) (c : Context) :
    (sole text s).evaluate c = .ok (c.value ref) := by
  have hbinding : binding? c s = some (.ofList s.symbol, .ofValue (c.value ref)) := by
    cases s <;> cases h <;> rfl
  have hbindings : (sole text s).bindings c = [(.ofList s.symbol, .ofValue (c.value ref))] := by
    simp [bindings, sole, hbinding]
  have hfield : Datum.field? [(String.ofList s.symbol, Datum.ofValue (c.value ref))]
      (.ofList s.symbol) = some (.ofValue (c.value ref)) := by
    simp [Datum.field?, Table.lookup]
  have hrun : (sole text s).run [(.ofList s.symbol, .ofValue (c.value ref))] =
      .ok (.ofValue (c.value ref)) := by
    simp only [sole, Expr.eval, hfield]
    rfl
  rw [evaluate, hbindings, hrun]
  dsimp only
  rw [Datum.toValue_ofValue]

/-- The identifiers that are references. -/
theorem exists_spells (h : isIdentifier w = true) (hhead : w.head? = some '@' ∨ w.head? = some '$') :
    ∃ s, Spells w s := by
  obtain hhead | hhead := hhead
  · obtain ⟨r, rfl⟩ := List.head?_eq_some_iff.1 hhead
    exact ⟨_, .variable h⟩
  · obtain ⟨r, rfl⟩ := List.head?_eq_some_iff.1 hhead
    have hr : r = ['$'] ∨ r ≠ [] ∧ r.all isDigit = true := by simpa [isIdentifier] using h
    obtain rfl | ⟨hne, hall⟩ := hr
    · exact ⟨_, .iterator⟩
    · exact ⟨_, spells_argument hne hall⟩

end Script

/-! ### Nodes -/

namespace Node
open Script (Spells Segment)

/-- The value in a context of a slot that is bound to a node. -/
def read (fs : Functions) (n : Node) (c : Context) : Value :=
  (((default : Slot Value).bind fs n).1.evaluate c).value

/-- A text as a script. -/
def scripted (text : String) (s t : Span) : Node := .call ⟨"expr", [.value ⟨text, .string, s⟩], t⟩

/-- A text as an identifier. -/
def bare (text : String) (s : Span) : Node := .value ⟨text, .identifier, s⟩

variable {fs : Functions} {n : Node} {source : Source} {f : Fault} {text : String} {s : Segment}
  {ref : Reference} {c : Context}

theorem read_of_ok (h : Source.ofNode fs n = .ok source) : n.read fs c = source.resolve c := by
  rw [read, Slot.bind_of_ok h]
  rfl

theorem read_of_error (h : Source.ofNode fs n = .error f) : n.read fs c = .absent := by
  rw [read, Slot.bind_of_error h]
  rfl

theorem read_scripted (h : Spells text.toList s) (href : s.reference? = some ref)
    (known : Table (List Value → Value)) (t u : Span) (c : Context) :
    (scripted text t u).read { byName := known } c = c.value ref := by
  have hnode : Source.ofNode { byName := known } (scripted text t u) =
      .ok (.script (.sole text s)) := by
    rw [scripted, ofNode_expr rfl, Source.ofScript]
    dsimp only
    rw [Script.compile_of_spells h]
  rw [read_of_ok hnode, Source.resolve, Script.evaluate_symbol href]

theorem ofNode_bare (u : Span) :
    Source.ofNode fs (bare text u) = (Source.ofIdentifier text).mapError (.located u) := rfl

theorem ofIdentifier_argument {ds : List Char} (hl : text.toList = '$' :: ds)
    (hall : ds.all isDigit = true) : Source.ofIdentifier text =
      match readIndex? ds with
      | some i => .ok (.argument i)
      | none => .error (.argumentInvalid text) := by
  obtain ⟨hl', h⟩ | ⟨hl', h⟩ | ⟨_, i, hl', hi, h⟩ | ⟨_, hl', -, hi, h⟩ | ⟨hl', -⟩ :=
    ofIdentifier_cases text
  · simp [hl] at hl'
  · cases hl.symm.trans hl'
    cases hall
  · cases hl.symm.trans hl'
    rw [h, hi]
  · cases hl.symm.trans hl'
    rw [h, hi]
  · simp [hl] at hl'

/-- Outside of scripts a reference reads what it stands for, unless its index is too large. -/
theorem read_bare (h : Spells text.toList s) (href : s.reference? = some ref) (fs : Functions)
    (u : Span) :
    (¬(⟨text, .identifier, u⟩ : Literal).OutOfRange ∧ (bare text u).Names ref ∧
      ∀ c, (bare text u).read fs c = c.value ref) ∨
    ((⟨text, .identifier, u⟩ : Literal).OutOfRange ∧ ref = .argument 0 ∧
      ∀ c, (bare text u).read fs c = .absent) := by
  have bound {source : Source} (hsource : Source.ofIdentifier text = .ok source) (c : Context) :
      (bare text u).read fs c = source.resolve c :=
    read_of_ok (by rw [ofNode_bare, hsource]; rfl)
  generalize hl : text.toList = w at h
  cases h with
  | @«variable» name hname =>
    cases href
    have htext : Script.variableName name = text := by
      rw [Script.variableName, ← hl, String.ofList_toList]
    have hsource : Source.ofIdentifier text = .ok (.variable text) := by
      rw [Source.ofIdentifier, hl]
      rfl
    have hrange : ¬(⟨text, .identifier, u⟩ : Literal).OutOfRange := by
      simp [Literal.OutOfRange, hl]
    rw [htext]
    exact .inl ⟨hrange, .variable rfl (by rw [hl]; rfl), bound hsource⟩
  | iterator =>
    cases href
    have htext : text = "$$" := String.toList_inj.1 hl
    have hrange : ¬(⟨text, .identifier, u⟩ : Literal).OutOfRange := by
      rintro ⟨ds, hds, hall, -⟩
      cases hl.symm.trans hds
      cases hall
    have hsource : Source.ofIdentifier text = .ok .iterator := by rw [htext]; rfl
    exact .inl ⟨hrange, .iterator rfl htext, bound hsource⟩
  | @argument ds hne hall hlt =>
    cases href
    have hlt : decimal ds < Nat.pow 2 64 := hlt
    have hindex : readIndex? ds = some (decimal ds) := by rw [readIndex?_digits hne hall, if_pos hlt]
    have hsource := ofIdentifier_argument hl hall
    rw [hindex] at hsource
    exact .inl ⟨fun hrange => (outOfRange_argument rfl hl hall).1 hrange hlt,
      .argument rfl hl hindex, bound hsource⟩
  | @overlong ds hne hall hle =>
    cases href
    have hle : ¬decimal ds < Nat.pow 2 64 := Nat.not_lt.2 hle
    have hindex : readIndex? ds = none := by rw [readIndex?_digits hne hall, if_neg hle]
    have hsource := ofIdentifier_argument hl hall
    rw [hindex] at hsource
    refine .inr ⟨(outOfRange_argument rfl hl hall).2 hle, rfl, fun c => ?_⟩
    exact read_of_error (by rw [ofNode_bare, hsource]; rfl)

/-- An identifier that is a reference reads the same as the script of its text in all contexts
exactly if it is not an argument whose index is too large, whatever functions are known. It then
reads what it names. One that is too large has no value outside of scripts, and is the first argument
in a script. -/
theorem reads_alike_iff (known : Table (List Value → Value)) {text : String}
    (h : isIdentifier text.toList = true)
    (hhead : text.toList.head? = some '@' ∨ text.toList.head? = some '$') (s t u : Span) :
    let fs : Functions := { byName := known }
    ((∀ c, (scripted text s t).read fs c = (bare text u).read fs c) ↔
      ¬(⟨text, .identifier, u⟩ : Literal).OutOfRange) ∧
    (¬(⟨text, .identifier, u⟩ : Literal).OutOfRange → ∃ ref, (bare text u).Names ref ∧
      ∀ c, (scripted text s t).read fs c = c.value ref) ∧
    ((⟨text, .identifier, u⟩ : Literal).OutOfRange → ∀ c,
      (scripted text s t).read fs c = c.argument 0 ∧ (bare text u).read fs c = .absent) := by
  intro fs
  obtain ⟨segment, hspells⟩ := Script.exists_spells h hhead
  obtain ⟨ref, href⟩ := Script.exists_reference hspells
  have hscripted (c : Context) : (scripted text s t).read fs c = c.value ref :=
    read_scripted hspells href known s t c
  obtain ⟨hrange, hnames, hbare⟩ | ⟨hrange, rfl, hbare⟩ := read_bare hspells href fs u
  · refine ⟨iff_of_true (fun c => ?_) hrange, fun _ => ⟨ref, hnames, hscripted⟩,
      fun hout => absurd hout hrange⟩
    rw [hscripted, hbare]
  · refine ⟨iff_of_false (fun halike => ?_) (not_not_intro hrange),
      fun hin => absurd hrange hin, fun _ c => ⟨hscripted c, hbare c⟩⟩
    -- Any first argument that is not absent tells the two apart.
    have hfirst := halike ⟨∅, .absent, [.int 0]⟩
    rw [hscripted, hbare] at hfirst
    cases hfirst

theorem reads_alike_variable : isIdentifier "@hp".toList = true ∧ "@hp".toList.head? = some '@' ∧
    ∀ c, (scripted "@hp" .synthetic .synthetic).read .builtin c =
      (bare "@hp" .synthetic).read .builtin c := by
  have hword : isIdentifier "@hp".toList = true := by decide
  have hrange : ¬(⟨"@hp", .identifier, .synthetic⟩ : Literal).OutOfRange := by
    simp [Literal.OutOfRange]
  exact ⟨hword, rfl, (reads_alike_iff Functions.builtin.byName hword (.inl rfl) .synthetic
    .synthetic .synthetic).1.2 hrange⟩

/-- An argument whose index is `2 ^ 64`. -/
def overlong : String := "$18446744073709551616"

theorem not_alike_overlong : isIdentifier overlong.toList = true ∧
    ¬∀ c, (scripted overlong .synthetic .synthetic).read .builtin c =
      (bare overlong .synthetic).read .builtin c := by
  have hspells : Spells overlong.toList (.argument 0) :=
    .overlong (by decide) (by decide) (by decide +kernel)
  have hbare : Source.ofNode .builtin (bare overlong .synthetic) =
      .error (.located .synthetic (.argumentInvalid overlong)) := by rfl
  refine ⟨by decide, fun halike => ?_⟩
  have hseven := halike ⟨∅, .absent, [.int 7]⟩
  have hscripted : (scripted overlong .synthetic .synthetic).read .builtin ⟨∅, .absent, [.int 7]⟩ =
      _ := read_scripted hspells rfl Functions.builtin.byName _ _ _
  rw [hscripted, read_of_error hbare] at hseven
  cases hseven

end Node
end StoryScript
