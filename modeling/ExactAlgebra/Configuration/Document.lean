import ExactAlgebra.Fault
import ExactAlgebra.Text.Blank

/-!
# Configuration documents

A document is a list of sections, each with options and their texts.  A header
stands in square brackets, an option is separated from its text by `=` or `:`, and
lines that are indented further continue the text.  Lines that start with `#` or
`;` are comments.  Sections and options must not be repeated.
-/

namespace ExactAlgebra.Configuration

/-- The options of a section, with their texts. -/
abbrev Options := List (String × String)

/-- The sections of a document, in order. -/
structure Document where
  sections : List (String × Options)
  deriving DecidableEq, Repr

/-- The section with options that all sections share. -/
def sharedSection : String := "DEFAULT"

namespace Document

def section? (document : Document) (name : String) : Option Options :=
  (document.sections.find? fun entry => entry.1 == name).map Prod.snd

/-- The options that all sections share. -/
def shared (document : Document) : Options := (document.section? sharedSection).getD []

/-- The options of a section and then the shared ones that it does not have. -/
def options (document : Document) (own : Options) : Options :=
  own ++ document.shared.filter fun entry => !own.any fun old => old.1 == entry.1

/-! ## Lines -/

/-- The lines of a text, which end in a line feed, a carriage return or both. -/
def lines : List Char → List (List Char)
  | [] => [[]]
  | '\r' :: '\n' :: rest => [] :: lines rest
  | c :: rest =>
      if c = '\n' ∨ c = '\r' then [] :: lines rest
      else match lines rest with
        | line :: others => (c :: line) :: others
        | [] => [[c]]

/-- What a line is by itself. -/
inductive Line where
  | blank
  | comment
  | header (name : String)
  | option (name text : String)
  | other
  deriving DecidableEq, Repr

/-- The name in a header, up to the last closing bracket of the line. -/
def headerName? : List Char → Option String
  | '[' :: rest =>
      match (rest.reverse.dropWhile fun c => c != ']').drop 1 with
      | [] => none
      | name => some (String.ofList name.reverse)
  | _ => none

/-- An option and its text, which the first delimiter separates. -/
def option? (line : List Char) : Option (String × String) :=
  let isDelimiter (c : Char) : Bool := c == '=' || c == ':'
  match line.dropWhile fun c => !isDelimiter c with
  | [] => none
  | _ :: rest =>
      some (String.ofList (Text.trimBlanks (line.takeWhile fun c => !isDelimiter c)),
        String.ofList (Text.trimBlanks rest))

/-- The kind of a line without the blanks around it. -/
def Line.ofText (line : List Char) : Line :=
  match line with
  | [] => .blank
  | first :: _ =>
      if first = '#' ∨ first = ';' then .comment
      else match headerName? line, option? line with
        | some name, _ => .header name
        | none, some (name, text) => .option name text
        | none, none => .other

/-! ## Reading -/

/-- A document under way, latest first.  An option is open until the next section
starts; its lines are in reverse. -/
structure Progress where
  sections : List (String × List (String × List String))
  isOpen : Bool
  indent : Nat
  flawed : Bool

/-- One more line for the latest option. -/
def Progress.extend (state : Progress) (line : String) : Progress :=
  match state.sections with
  | (name, (option, lines) :: options) :: rest =>
      { state with sections := (name, (option, line :: lines) :: options) :: rest }
  | _ => state

/-- A new section; the shared one may come again. -/
def Progress.startSection (state : Progress) (name : String) : Except Fault Progress :=
  match state.sections.find? fun entry => entry.1 == name with
  | none => .ok { state with sections := (name, []) :: state.sections, isOpen := false }
  | some known =>
      if name = sharedSection then
        .ok { state with
          sections := known :: state.sections.filter fun entry => entry.1 != name
          isOpen := false }
      else .error (.ini .duplicateSection)

/-- A new option.  One without a name is a flaw. -/
def Progress.startOption (state : Progress) (name text : String) : Except Fault Progress :=
  match state.sections with
  | [] => .error (.ini .missingSectionHeader)
  | (heading, options) :: rest =>
      if options.any fun entry => entry.1 == name then .error (.ini .duplicateOption)
      else .ok { state with
        sections := (heading, (name, [text]) :: options) :: rest
        isOpen := !name.isEmpty
        flawed := state.flawed || name.isEmpty }

/-- Reads a line.  Further indentation continues the open option. -/
def Progress.read (state : Progress) (line : List Char) : Except Fault Progress :=
  let indent := (line.takeWhile Text.isBlank).length
  let content := Text.trimBlanks line
  match Line.ofText content with
  | .comment => .ok state
  | .blank => .ok (if state.isOpen then state.extend "" else state)
  | kind =>
      if state.isOpen && decide (state.indent < indent) then
        .ok (state.extend (String.ofList content))
      else
        let state := { state with indent := indent }
        match kind with
        | .header name => state.startSection name
        | .option name text => state.startOption name text
        | _ =>
            if state.sections.isEmpty then .error (.ini .missingSectionHeader)
            else .ok { state with flawed := true }

/-- The lines of an option as one text, without blanks at its end. -/
def joined (lines : List String) : String :=
  String.ofList
    ((("\n".intercalate lines.reverse).toList.reverse.dropWhile Text.isBlank).reverse)

/-- The document that a text denotes. -/
def ofText (text : String) : Except Fault Document := do
  let state ← (lines text.toList).foldlM Progress.read ⟨[], false, 0, false⟩
  if state.flawed then throw (.ini .parsing)
  return ⟨state.sections.reverse.map fun entry =>
    (entry.1, entry.2.reverse.map fun option => (option.1, joined option.2))⟩

end Document

end ExactAlgebra.Configuration
