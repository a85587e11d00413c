/-!
# Paths

A path is a text with names below it. The text may be anything; what is joined to it is one
name at a time.
-/

namespace ParticleChain

structure Path where
  text : String
  names : List String
  deriving DecidableEq, Inhabited

namespace Path

def ofText (text : String) : Path := ⟨text, []⟩

/-- The path of a name below. -/
def child (p : Path) (name : String) : Path := { p with names := p.names ++ [name] }

instance : HDiv Path String Path := ⟨child⟩

/-- Puts a slash between, where there is something to divide and no slash yet. -/
def joinText (text name : String) : String :=
  if text.isEmpty || text.endsWith "/" then text ++ name else text ++ "/" ++ name

def render (p : Path) : String := p.names.foldl joinText p.text

def isAbsolute (p : Path) : Bool := p.text.startsWith "/"

/-- What stands between the slashes; `.` and `..` count. -/
def parts (p : Path) : List String := (p.text.splitOn "/").filter (!·.isEmpty) ++ p.names

/-- What a path asks for, step by step. A slash at the end asks for a directory, which the step
`.` does. -/
def steps (p : Path) : List String :=
  p.parts ++ if p.text.endsWith "/" && p.names.isEmpty then ["."] else []

/-- A name without its last extension; a leading dot starts none. -/
def stem (name : String) : String :=
  match name.toList.reverse.span (· != '.') with
  | (_, '.' :: c :: rest) => String.ofList (c :: rest).reverse
  | _ => name

/-- The last extension of a name. -/
def extension? (name : String) : Option String :=
  match name.toList.reverse.span (· != '.') with
  | (extension, '.' :: _ :: _) => some (String.ofList extension.reverse)
  | _ => none

end Path

end ParticleChain
