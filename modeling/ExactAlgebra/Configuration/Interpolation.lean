import ExactAlgebra.Configuration.Document

/-!
# Interpolation in configuration texts

In the text of an option `%(name)s` stands for the text of another option, and two
percent signs for one.  Texts that are put in may refer to others in turn, down
to a fixed depth.
-/

namespace ExactAlgebra.Configuration.Interpolation

/-- A text with the options that it refers to, given how a text that is put in
is expanded. -/
def expandWith (options : Options) (nested : List Char → Except Fault (List Char))
    (text : List Char) : Except Fault (List Char) :=
  match text with
  | [] => .ok []
  | '%' :: '%' :: rest => return '%' :: (← expandWith options nested rest)
  | '%' :: '(' :: rest =>
      let name := rest.takeWhile fun c => c != ')'
      match _h : rest.dropWhile fun c => c != ')' with
      | ')' :: 's' :: others => do
          if name.isEmpty then throw (.ini .interpolationSyntax)
          match options.find? fun entry => entry.1 == String.ofList name with
          | none => throw (.ini .interpolationMissingOption)
          | some (_, value) =>
              let inner ← if value.toList.contains '%' then nested value.toList
                else .ok value.toList
              return inner ++ (← expandWith options nested others)
      | _ => .error (.ini .interpolationSyntax)
  | '%' :: _ => .error (.ini .interpolationSyntax)
  | c :: rest => return c :: (← expandWith options nested rest)
termination_by text.length
decreasing_by
  all_goals simp only [List.length_cons]
  · omega
  · have := (List.dropWhile_sublist (fun c => c != ')') (l := rest)).length_le
    rw [_h] at this
    simp only [List.length_cons] at this
    omega
  · omega

/-- A text with the options that it refers to, at most `depth` levels deep. -/
def expandNested (options : Options) : (depth : Nat) → List Char → Except Fault (List Char)
  | 0, _ => .error (.ini .interpolationDepth)
  | depth + 1, text => expandWith options (expandNested options depth) text

/-- The greatest depth of references. -/
def deepest : Nat := 10

/-- The text of an option with the options that it refers to. -/
def expand (options : Options) (text : String) : Except Fault String :=
  return String.ofList (← expandNested options deepest text.toList)

end ExactAlgebra.Configuration.Interpolation
