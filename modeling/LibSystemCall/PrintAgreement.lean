import LibSystemCall.PrintRoundTrip

/-! # One format for kdoprnt and z_sprintf

The two functions agree item by item on the directives they share, up to the mask of
`%c` in `kdoprnt`. `%%` is not among the directives of `kdoprnt`. -/
namespace PrintAgreement

open ByteMemory PrintBuffer PrintFormat PrintScan PrintText PrintRoundTrip

/-- The run of `kdoprnt` for an item with the text `t`; `percent` is the one for `%%`. -/
def passed (percent : List UInt8) (i : Item) (t : List UInt8) : List UInt8 :=
  match i with
  | .percent => percent
  | .character => t.map (· &&& 0x7f)
  | _ => t

end PrintAgreement
