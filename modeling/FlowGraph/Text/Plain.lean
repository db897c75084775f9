/-!
Text as a file shows it that cannot be a terminal: control sequences are left out, and so are the
control characters that are no white space.
-/
namespace FlowGraph.Text

/-- What a character may be part of. `escape` is right after an escape character and `escapeTail`
after more of the sequence that it starts; `control` is in a control sequence. The three that start
with `device` are in the head of a device control string, `string` is in its body or in a string of
another kind, and `command` is in an operating system command. -/
inductive Part where
  | shown
  | escape
  | escapeTail
  | control
  | device
  | deviceParameters
  | deviceTail
  | string
  | command
deriving DecidableEq, Repr

/-- Whether the number of a character lies between two bounds. -/
def inRange (first last : Nat) (c : Char) : Bool := first ≤ c.toNat && c.toNat ≤ last

/-- The white space among the control characters. The vertical tab does not count. -/
def isSpacing (c : Char) : Bool := ['\t', '\n', '\x0c', '\r'].contains c

/-- The characters that show outside of all sequences. -/
def isShown (c : Char) : Bool := inRange 0x20 0x7E c || 0x80 ≤ c.toNat || isSpacing c

/-- A string ends with the byte 0x9C, also where it belongs to the UTF-8 form of a character. -/
def endsString (c : Char) : Bool := (String.utf8EncodeChar c).contains 0x9C

namespace Part

/-- What comes after `c`, which is itself part of `p`. -/
def after (p : Part) (c : Char) : Part :=
  if c = '\x1b' then .escape
  else if c = '\x18' || c = '\x1a' then .shown
  else
    match p with
    | .shown => .shown
    | .escape =>
      if c = '[' then .control
      else if c = ']' then .command
      else if c = 'P' then .device
      else if ['X', '^', '_'].contains c then .string
      else if inRange 0x20 0x2F c then .escapeTail
      else if inRange 0x30 0x7E c then .shown
      else .escape
    | .escapeTail => if inRange 0x30 0x7E c then .shown else .escapeTail
    | .control => if inRange 0x40 0x7E c then .shown else .control
    | .device =>
      if inRange 0x20 0x2F c then .deviceTail
      else if inRange 0x30 0x3F c then .deviceParameters
      else if inRange 0x40 0x7E c then .string
      else .device
    | .deviceParameters =>
      if inRange 0x20 0x2F c then .deviceTail
      else if inRange 0x3C 0x7E c then .string
      else .deviceParameters
    | .deviceTail => if inRange 0x30 0x7E c then .string else .deviceTail
    | .string => if endsString c then .shown else .string
    | .command => if c = '\x07' then .shown else .command

/-- Whether `c`, which is part of `p`, shows. -/
def shows (p : Part) (c : Char) : Bool :=
  match p with
  | .shown => isShown c
  | .escape | .escapeTail | .control => isSpacing c
  | _ => false

end Part

/-- The characters that show, from a place in the part `p` on. White space interrupts an escape or
control sequence: everything shows up to the next character that cannot, and there the sequence
goes on, unless a character that is not ASCII has ended it. -/
def shownFrom : Part → Bool → List Char → List Char
  | _, _, [] => []
  | p, interrupted, c :: cs =>
    if interrupted && isShown c then
      c :: shownFrom (if c.toNat < 0x80 then p else .shown) true cs
    else if p.shows c then c :: shownFrom (p.after c) true cs
    else shownFrom (p.after c) false cs

/-- A text without control sequences. -/
def plain (s : String) : String := String.ofList (shownFrom .shown false s.toList)

end FlowGraph.Text
