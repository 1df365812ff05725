import Editorial.Text.Utf8

/-!
# Paths of requests

The path of a request as it is routed: without query and fragment, and with its escapes resolved.
An escape is a percent sign with two hexadecimal digits and stands for one byte; the bytes of the
whole path are then read as UTF-8. Segments are what stands between slashes. A path that is written
with several slashes in a row has a plain form with single ones.
-/

namespace Editorial.Api

open Text

/-- The value of a hexadecimal digit. -/
def hexValue? (c : Char) : Option Nat :=
  if '0' ≤ c && c ≤ '9' then some (c.toNat - '0'.toNat)
  else if 'a' ≤ c && c ≤ 'f' then some (c.toNat - 'a'.toNat + 10)
  else if 'A' ≤ c && c ≤ 'F' then some (c.toNat - 'A'.toNat + 10)
  else none

/-- The byte that two hexadecimal digits denote. -/
def byteOf? (high low : Char) : Option Nat := do
  let h ← hexValue? high
  let l ← hexValue? low
  return 16 * h + l

/-- The bytes of a character. -/
def bytesOf (c : Char) : List Nat :=
  (String.singleton c).toUTF8.toList.map UInt8.toNat

/-- The bytes of a text with its escapes resolved. A percent sign that begins no escape stands for
itself. -/
def unescape : List Char → List Nat
  | [] => []
  | '%' :: high :: low :: rest =>
      match byteOf? high low with
      | some b => b :: unescape rest
      | none => bytesOf '%' ++ unescape (high :: low :: rest)
  | c :: rest => bytesOf c ++ unescape rest

/-- Whether a character ends the path of an address. -/
def endsPath (c : Char) : Bool := c == '?' || c == '#'

/-- Whether a character is dropped from an address. -/
def isDropped (c : Char) : Bool := c == '\t' || c == '\n' || c == '\r'

/-- The path of an address, its escapes resolved. -/
def pathOf (address : String) : String :=
  let cs := (address.toList.filter fun c => !isDropped c).takeWhile fun c => !endsPath c
  String.ofList (decodeUtf8 (unescape cs))

/-- The parts between slashes. -/
def splitSlashes : List Char → List (List Char)
  | [] => [[]]
  | c :: rest =>
      match splitSlashes rest with
      | [] => [[c]]
      | part :: parts => if c = '/' then [] :: part :: parts else (c :: part) :: parts

/-- The segments of a path. -/
def segments (path : String) : List String :=
  (splitSlashes path.toList).map String.ofList

/-- The characters of a path without the slashes that follow another slash; `after` says whether one
came just before. -/
def dropSlashes (after : Bool) : List Char → List Char
  | [] => []
  | c :: rest =>
      if after && c == '/' then dropSlashes true rest else c :: dropSlashes (c == '/') rest

/-- The path with single slashes. -/
def mergeSlashes (path : String) : String :=
  String.ofList (dropSlashes false path.toList)

end Editorial.Api
