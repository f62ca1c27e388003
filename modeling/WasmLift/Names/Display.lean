import WasmLift.Text.Hex

/-!
# Display names

A function's internal name may hold escapes, a backslash and two lowercase hexadecimal digits, that
stand for characters. The name it is shown with has them decoded, and a name that is a number is
shown with `$func` in front.
-/

namespace WasmLift.Names

/-- Replaces each escape by the character it stands for, from left to right, and copies everything
else. -/
def decodeEscapes : List Char → List Char
  | '\\' :: high :: low :: rest =>
    match Text.hexValue? high, Text.hexValue? low with
    | some h, some l => Char.ofNat (16 * h + l) :: decodeEscapes rest
    | _, _ => '\\' :: decodeEscapes (high :: low :: rest)
  | c :: rest => c :: decodeEscapes rest
  | [] => []

/-- A non-empty run of decimal digits. -/
def isNumber (cs : List Char) : Bool :=
  !cs.isEmpty && cs.all fun c => '0' ≤ c && c ≤ '9'

/-- The shown form of a decoded name: a number has `$func` in front. -/
def displayDecoded (cs : List Char) : List Char :=
  if isNumber cs then "$func".toList ++ cs else cs

/-- The name that an internal name is shown with. -/
def displayForm (raw : String) : String :=
  String.ofList (displayDecoded (decodeEscapes raw.toList))

/-- A character that may begin a bare identifier. -/
def beginsIdentifier (c : Char) : Bool :=
  ('a' ≤ c && c ≤ 'z') || ('A' ≤ c && c ≤ 'Z') || c == '$' || c == '_'

/-- A letter, dollar sign or underscore, followed by these and digits. -/
def isBareIdentifier (s : String) : Bool :=
  match s.toList with
  | [] => false
  | c :: rest => beginsIdentifier c && rest.all fun d => beginsIdentifier d || ('0' ≤ d && d ≤ '9')

end WasmLift.Names
