/-!
# Two dialects

Documents are read in one of two dialects of YAML.  The *classic* one follows version 1.1
throughout.  The *modern* one follows version 1.2 until a directive asks for version 1.1.  The
dialects also differ in which characters break a line, and the character classes of a token's
surroundings are collected here.
-/

namespace YamlCheck.Yaml

inductive Dialect
  | classic
  | modern
  deriving Repr, DecidableEq

namespace Dialect

def all : List Dialect := [.classic, .modern]

def name : Dialect → String
  | .classic => "pyyaml"
  | .modern => "ruamel"

def ofName? (s : String) : Option Dialect := all.find? (·.name == s)

end Dialect

structure Version where
  major : Nat
  minor : Nat
  deriving Repr, DecidableEq

def Version.v11 : Version := ⟨1, 1⟩
def Version.v12 : Version := ⟨1, 2⟩

def Version.after (a b : Version) : Bool :=
  b.major < a.major || (b.major == a.major && b.minor < a.minor)

/-- Stands for the end of the text wherever a character is looked at. -/
def endChar : Char := '\x00'

def isSeparator (c : Char) : Bool := c.toNat == 0x2028 || c.toNat == 0x2029

def isNextLine (c : Char) : Bool := c.toNat == 0x85

/-- A line break in the widest sense. -/
def isBreak (c : Char) : Bool :=
  c == '\n' || c == '\r' || isNextLine c || isSeparator c

def isBreakOrEnd (c : Char) : Bool := c == endChar || isBreak c

def isSpaceBreakOrEnd (c : Char) : Bool := c == ' ' || isBreakOrEnd c

/-- What ends a comment or a line of a block scalar. -/
def Dialect.endsLine (d : Dialect) (c : Char) : Bool :=
  c == endChar || c == '\n' || c == '\r' || isNextLine c || (d == .classic && isSeparator c)

/-- What separates an indicator from what follows: a blank, the end of a line or the end. -/
def Dialect.endsWord (d : Dialect) (c : Char) : Bool :=
  c == ' ' || c == '\t' || d.endsLine c

/-- What starts a new line in the count of lines.  A carriage return counts only if no line feed
follows it. -/
def Dialect.countsLine (d : Dialect) (c next : Char) : Bool :=
  c == '\n' || (c == '\r' && next != '\n')
    || (d == .classic && (isNextLine c || isSeparator c))

def isDigit (c : Char) : Bool := '0' ≤ c && c ≤ '9'

def isHexDigit (c : Char) : Bool :=
  isDigit c || ('a' ≤ c && c ≤ 'f') || ('A' ≤ c && c ≤ 'F')

def isWordChar (c : Char) : Bool :=
  isDigit c || ('a' ≤ c && c ≤ 'z') || ('A' ≤ c && c ≤ 'Z') || c == '-' || c == '_'

def Dialect.inDirectiveName (d : Dialect) (c : Char) : Bool :=
  isWordChar c || (d == .modern && (c == ':' || c == '.'))

def isFlowIndicator (c : Char) : Bool :=
  c == ',' || c == '[' || c == ']' || c == '{' || c == '}'

/-- What the name of an anchor may hold: ASCII words, or in the modern dialect whatever is visible
and not a flow indicator. -/
def Dialect.inAnchor (d : Dialect) (c : Char) : Bool :=
  match d with
  | .classic => isWordChar c
  | .modern =>
    let n := c.toNat
    !isFlowIndicator c
      && ((0x21 ≤ n && n ≤ 0x7e) || (0xa0 ≤ n && n ≤ 0xd7ff)
        || (0xe000 ≤ n && n ≤ 0xfffd && n != 0xfeff) || 0x10000 ≤ n)

/-- What may follow the name of an anchor; an opening bracket only in the modern dialect. -/
def Dialect.mayFollowAnchor (d : Dialect) (c : Char) : Bool :=
  isSpaceBreakOrEnd c || c == '\t' || "?:,]%@".toList.contains c || c.toNat == 0x7d
    || c.toNat == 0x60
    || (d == .modern && isFlowIndicator c)

def inUri (allowHash : Bool) (c : Char) : Bool :=
  isWordChar c || "-;/?:@&=+$,_.!~*'()[]%".toList.contains c || (allowHash && c == '#')

def startsOther (c : Char) : Bool :=
  isSpaceBreakOrEnd c || c == '\t' || isFlowIndicator c
    || "-?:#&*!|>'\"%@".toList.contains c || c.toNat == 0x60

end YamlCheck.Yaml
