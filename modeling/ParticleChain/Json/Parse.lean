import ParticleChain.Json.Value
import ParticleChain.Json.Token

/-!
# Reading JSON

A text is read word by word. `Expect` says what the next word may be, and `Open` what has been
read of the arrays and objects around it, the innermost first; so no depth of nesting matters.
-/

namespace ParticleChain.Json

/-- An array or object that is not closed yet, with its last item first. -/
inductive Open where
  | items (done : List Json)
  /-- The fields before, and the key whose value is being read. -/
  | fields (done : List (Option String × Json)) (key : Option String)

inductive Expect where
  | value
  | itemOrClose
  | keyOrClose
  | key (done : List (Option String × Json))
  | colon (done : List (Option String × Json)) (key : Option String)
  /-- What may follow a value. -/
  | after (v : Json)

/-- A word that starts a value. -/
def beginValue (around : List Open) : Token → Option (Expect × List Open)
  | .null => some (.after null, around)
  | .bool b => some (.after (bool b), around)
  | .number n => some (.after (number n), around)
  | .text s => some (.after (text s), around)
  | .openBracket => some (.itemOrClose, around)
  | .openBrace => some (.keyOrClose, around)
  | .closeBracket | .closeBrace | .comma | .colon => none

/-- A word behind a value, which goes into the innermost array or object. -/
def continueValue (v : Json) : List Open → Token → Option (Expect × List Open)
  | .items done :: around, .comma => some (.value, .items (v :: done) :: around)
  | .items done :: around, .closeBracket => some (.after (array (v :: done).reverse), around)
  | .fields done k :: around, .comma => some (.key ((k, v) :: done), around)
  | .fields done k :: around, .closeBrace => some (.after (object ((k, v) :: done).reverse), around)
  | _, _ => none

def step : Expect × List Open → Token → Option (Expect × List Open)
  | (.value, around), t => beginValue around t
  | (.itemOrClose, around), .closeBracket => some (.after (array []), around)
  | (.itemOrClose, around), t => beginValue (.items [] :: around) t
  | (.keyOrClose, around), .closeBrace => some (.after (object []), around)
  | (.keyOrClose, around), .text k => some (.colon [] k, around)
  | (.keyOrClose, _), _ => none
  | (.key done, around), .text k => some (.colon done k, around)
  | (.key _, _), _ => none
  | (.colon done k, around), .colon => some (.value, .fields done k :: around)
  | (.colon _ _, _), _ => none
  | (.after v, around), t => continueValue v around t

/-- The value a list of words spells. -/
def ofTokens? (words : List Token) : Option Json :=
  match words.foldlM step (.value, []) with
  | some (.after v, []) => some v
  | _ => none

/-- The value a text spells, blanks around it apart. -/
def parse? (text : String) : Option Json := (tokens? text).bind ofTokens?

end ParticleChain.Json
