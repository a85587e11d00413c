import ParticleChain.Node.Error

/-!
# Init code as text

Hexadecimal digits, with or without `0x` in front; blanks around them do not matter.
-/

namespace ParticleChain.Node

/-- The characters with the Unicode property `White_Space`. -/
def isBlank (c : Char) : Bool :=
  let n := c.toNat
  (9 ≤ n && n ≤ 13) || n == 0x20 || n == 0x85 || n == 0xa0 || n == 0x1680 ||
    (0x2000 ≤ n && n ≤ 0x200a) || n == 0x2028 || n == 0x2029 || n == 0x202f || n == 0x205f ||
    n == 0x3000

/-- The text without the blanks at its ends. -/
def trimBlanks (text : String) : List Char :=
  ((text.toList.dropWhile isBlank).reverse.dropWhile isBlank).reverse

def badBytecode (reason : String) : Error := .deploy .invalidBytecode reason .empty

/-- The bytes of init code, of which there must be some. -/
def parseBytecode (text : String) : Except Error ByteArray :=
  let digits := match trimBlanks text with
    | '0' :: 'x' :: r => r
    | r => r
  match Hex.decode (String.ofList digits) with
  | .error e => .error (badBytecode ("cannot parse bytecode: " ++ e.message))
  | .ok code => if code.isEmpty then .error (badBytecode "empty bytecode") else .ok code

end ParticleChain.Node
