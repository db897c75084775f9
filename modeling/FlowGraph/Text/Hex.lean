/-! Hexadecimal numbers, in lower case and without leading zeros. -/
namespace FlowGraph.Text

def hexDigits (n : Nat) : String := String.ofList (Nat.toDigits 16 n)

/-- An address, marked as hexadecimal. -/
def address (a : UInt64) : String := "0x" ++ hexDigits a.toNat

end FlowGraph.Text
