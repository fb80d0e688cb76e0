/-! Numbers padded with zeros. The sign comes before the zeros and counts for the width. -/
namespace InstrStream.Text

def zeroPadded (width : Nat) (v : Int) : String :=
  let digits := toString v.natAbs
  let sign := if v < 0 then "-" else ""
  sign ++ String.ofList (List.replicate (width - sign.length - digits.length) '0') ++ digits

/-- A number in capital hexadecimal digits, at least `width` of them. -/
def hexPadded (width n : Nat) : String :=
  let digits := (Nat.toDigits 16 n).map Char.toUpper
  String.ofList (List.replicate (width - digits.length) '0' ++ digits)

end InstrStream.Text
