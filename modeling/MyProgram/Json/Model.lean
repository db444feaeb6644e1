import MyProgram.Lib.Assoc
import MyProgram.Lib.LuaString

/-! The JSON library of the cluster test (`global/json.lua`): Lua values, `json.encode` and
`json.decode`. -/
namespace MyProgram.Json
open Lib

/-- The numbers of Lua with `%.14g` and `tonumber`. -/
structure Numbers where
  Num : Type
  finite : Num → Bool
  format : Num → Bytes
  tonumber : Bytes → Option Num

/-- A key of a table. -/
inductive Key where
  | str (s : Bytes)
  | int (i : Int)
  deriving DecidableEq, Repr

/-- A Lua value without cycles. A table has its entries in the order of `pairs`, and the border
that `#` returns for it. -/
inductive Value (N : Numbers) where
  | nil
  | bool (b : Bool)
  | number (n : N.Num)
  | str (s : Bytes)
  | table (entries : List (Key × Value N)) (border : Nat)

/-- `tostring(k)` -/
def Key.tostring : Key → Bytes
  | .str s => s
  | .int i => signedDecimal i

def Key.isNumber : Key → Bool
  | .str _ => false
  | .int _ => true

/-- The values that `ipairs` runs over. -/
def ipairsFrom {α : Type} (es : List (Key × α)) : Nat → Nat → List α
  | 0, _ => []
  | fuel + 1, i => match es.lookup (.int i) with
    | some v => v :: ipairsFrom es fuel (i + 1)
    | none => []

def ipairs {α : Type} (es : List (Key × α)) : List α := ipairsFrom es es.length 1

/-! Encoding. -/

def escapeCharMap : List (UInt8 × Bytes) :=
  [(92,[92,92]),(34,[92,34]),(8,[92,98]),(12,[92,102]),(10,[92,110]),(13,[92,114]),(9,[92,116])]

/-- `%04x` of a byte. -/
def hex4 (b : UInt8) : Bytes :=
  let hex (n : Nat) : UInt8 := if n < 10 then UInt8.ofNat (48 + n) else UInt8.ofNat (87 + n)
  [48,48,hex (b.toNat / 16),hex (b.toNat % 16)]

def escapeChar (c : UInt8) : Bytes :=
  match escapeCharMap.lookup c with
  | some s => s
  | none => 92 :: 117 :: hex4 c

/-- `val:gsub('[%z\1-\31\\"]', escape_char)` -/
def escape (val : Bytes) : Bytes := val.flatMap fun c => if c < 32 ∨ c = 92 ∨ c = 34 then escapeChar c else [c]

def encodeString (val : Bytes) : Bytes := 34 :: (escape val ++ [34])

inductive EncodeError where
  | unexpectedNumber | sparseArray
  deriving DecidableEq, Repr

/-- Treat as an object. -/
def encodeObject (es : List (Key × Except EncodeError Bytes)) : Except EncodeError Bytes := do
  let res ← es.mapM fun e => do
    let v ← e.2
    pure (encodeString e.1.tostring ++ 58 :: v)
  pure (123 :: ([44].intercalate res ++ [125]))

def encodeArray (vs : List (Except EncodeError Bytes)) : Except EncodeError Bytes := do
  let res ← vs.mapM fun v => v
  pure (91 :: ([44].intercalate res ++ [93]))

/-- An array has an entry 1, or none at all, and numbers as keys only. -/
def isArray {α : Type} (es : List (Key × α)) : Bool :=
  ((es.lookup (.int 1)).isSome || es.isEmpty) && es.all (·.1.isNumber)

/-- `encode_table` for a table whose values are encoded already. A value without cycles is
not on the stack of the tables around it. -/
def encodeTable (es : List (Key × Except EncodeError Bytes)) (border : Nat) : Except EncodeError Bytes :=
  if isArray es then
    if es.length ≠ border then .error .sparseArray else encodeArray (ipairs es)
  else encodeObject es

mutual

def encode {N : Numbers} : Value N → Except EncodeError Bytes
  | .nil => .ok (ascii "null")
  | .bool b => .ok (if b then ascii "true" else ascii "false")
  | .number n => if N.finite n then .ok (N.format n) else .error .unexpectedNumber
  | .str s => .ok (encodeString s)
  | .table es border => encodeTable (encodeEntries es) border

def encodeEntries {N : Numbers} : List (Key × Value N) → List (Key × Except EncodeError Bytes)
  | [] => []
  | (k,v) :: es => (k,encode v) :: encodeEntries es

end

/-! Decoding. -/

/-- The messages of `decode_error`. -/
inductive Message where
  | controlCharacter | invalidUnicodeEscape
  | invalidEscape (c : UInt8)
  | expectedClosingQuote
  | invalidNumber (s : Bytes)
  | invalidLiteral (word : Bytes)
  | expectedArrayEnd | expectedKey | expectedColon | expectedObjectEnd
  | unexpectedCharacter (chr : Bytes)
  | trailingGarbage
  deriving DecidableEq, Repr

/-- The other errors: a comparison with `nil`, `string.char` out of its range, and the error of
`codepoint_to_utf8`. -/
inductive Raised where
  | compareNil | charOutOfRange | invalidCodepoint
  deriving DecidableEq, Repr

/-- How parsing ends without a value. The place of a message is the length of the text from
there on. -/
inductive ParseError where
  | message (m : Message) (left : Int)
  | raised (e : Raised)
  | outOfFuel
  deriving DecidableEq, Repr

abbrev Parse := Except ParseError

def isSpaceChar (b : UInt8) : Bool := b = 32 || b = 9 || b = 13 || b = 10

def isDelim (b : UInt8) : Bool := isSpaceChar b || b = 93 || b = 125 || b = 44

/-- `next_char(str, i, space_chars, true)` -/
def skipSpaces (text : Bytes) : Bytes := text.dropWhile isSpaceChar

/-- `string.char(n)` -/
def char (n : Int) : Except Raised UInt8 := if 0 ≤ n ∧ n < 256 then .ok (UInt8.ofNat n.toNat) else .error .charOutOfRange

def codepointToUtf8 (n : Int) : Except Raised Bytes :=
  if n ≤ 0x7f then [n].mapM char
  else if n ≤ 0x7ff then [n / 64 + 192,n % 64 + 128].mapM char
  else if n ≤ 0xffff then [n / 4096 + 224,n % 4096 / 64 + 128,n % 64 + 128].mapM char
  else if n ≤ 0x10ffff then [n / 262144 + 240,n % 262144 / 4096 + 128,n % 4096 / 64 + 128,n % 64 + 128].mapM char
  else .error .invalidCodepoint

def parseUnicodeEscape (s : Bytes) : Except Raised Bytes :=
  match tonumber 16 ((s.drop 2).take 4), tonumber 16 ((s.drop 8).take 4) with
  | some n1, some n2 => codepointToUtf8 ((n1 - 0xd800) * 0x400 + (n2 - 0xdc00) + 0x10000)
  | some n1, none => codepointToUtf8 n1
  | none, _ => .error .compareNil

/-- `\u[dD][89aAbB]..\u....` -/
def surrogateFound : Bytes → Bool
  | 92 :: 117 :: d :: e :: _ :: _ :: 92 :: 117 :: _ :: _ :: _ :: _ :: _ =>
    [68,100].contains d && [56,57,97,65,98,66].contains e
  | _ => false

/-- `\u....` -/
def unicodeFound : Bytes → Bool
  | 92 :: 117 :: _ :: _ :: _ :: _ :: _ => true
  | _ => false

/-- `\.` -/
def escapeFound : Bytes → Bool
  | 92 :: _ :: _ => true
  | _ => false

def escapeCharMapInv : List (Bytes × UInt8) := ([92,47],47) :: escapeCharMap.map fun e => (e.2,e.1)

/-- The value of `escape_char_map_inv`, or the match itself. -/
def unescape (s : Bytes) : Except Raised Bytes := .ok (match escapeCharMapInv.lookup s with
  | some c => [c]
  | none => s)

structure Flags where
  unicode : Bool
  surrogate : Bool
  escape : Bool
  deriving DecidableEq, Repr

/-- The substitutions at the closing quote. -/
def substitute (f : Flags) (s : Bytes) : Except Raised Bytes := do
  let s ← if f.surrogate then gsub 12 surrogateFound parseUnicodeEscape s else pure s
  let s ← if f.unicode then gsub 6 unicodeFound parseUnicodeEscape s else pure s
  if f.escape then gsub 2 escapeFound unescape s else pure s

def isHex (b : UInt8) : Bool := (digit 16 b).isSome

/-- `hex:find("%x%x%x%x")` in five characters. -/
def hasFourHex : Bytes → Bool
  | [a,b,c,d] => isHex a && isHex b && isHex c && isHex d
  | [a,b,c,d,e] => (isHex a && isHex b && isHex c && isHex d) || (isHex b && isHex c && isHex d && isHex e)
  | _ => false

/-- `hex:find("^[dD][89aAbB]")` -/
def startsSurrogate : Bytes → Bool
  | d :: e :: _ => [68,100].contains d && [56,57,97,65,98,66].contains e
  | _ => false

/-- The loop of `parse_string`: the flags, the text between the quotes and what follows. `last`
says that the last character was a backslash that is not escaped. -/
def scanString (start : Nat) (last : Bool) (f : Flags) (seen : Bytes) : Bytes → Parse (Flags × Bytes × Bytes)
  | [] => .error (.message .expectedClosingQuote start)
  | x :: rest =>
    if x < 32 then .error (.message .controlCharacter (rest.length + 1))
    else if last then
      if x = 117 then
        if !hasFourHex (rest.take 5) then .error (.message .invalidUnicodeEscape (rest.length + 1))
        else if startsSurrogate (rest.take 5) then scanString start false { f with surrogate := true } (seen ++ [x]) rest
        else scanString start false { f with unicode := true } (seen ++ [x]) rest
      else if !(ascii "\\/\"bfnrtu").contains x then .error (.message (.invalidEscape x) (rest.length + 1))
      else scanString start false { f with escape := true } (seen ++ [x]) rest
    else if x = 34 then .ok (f,seen,rest)
    else scanString start (x = 92) f (seen ++ [x]) rest

/-- `parse_string` behind the opening quote. -/
def parseString (text : Bytes) : Parse (Bytes × Bytes) := do
  let (f,s,rest) ← scanString (text.length + 1) false ⟨false,false,false⟩ [] text
  match substitute f s with
  | .ok s => .ok (s,rest)
  | .error e => .error (.raised e)

variable {N : Numbers}

def parseNumber (text : Bytes) : Parse (Value N × Bytes) :=
  let s := text.takeWhile fun b => !isDelim b
  match N.tonumber s with
  | some n => .ok (.number n,text.drop s.length)
  | none => .error (.message (.invalidNumber s) text.length)

def parseLiteral (text : Bytes) : Parse (Value N × Bytes) :=
  let word := text.takeWhile fun b => !isDelim b
  if word = ascii "true" then .ok (.bool true,text.drop word.length)
  else if word = ascii "false" then .ok (.bool false,text.drop word.length)
  else if word = ascii "null" then .ok (.nil,text.drop word.length)
  else .error (.message (.invalidLiteral word) text.length)

/-- A value as the right side of an assignment to a field. -/
def Value.field : Value N → Option (Value N)
  | .nil => none
  | v => some v

/-- A table that was filled by assignments. -/
def Value.ofEntries (es : List (Key × Value N)) : Value N := .table es (ipairs es).length

/-- The loop of `parse_array`. -/
def parseArray (parse : Bytes → Parse (Value N × Bytes)) : Nat → Nat → List (Key × Value N) → Bytes → Parse (Value N × Bytes)
  | 0, _, _, _ => .error .outOfFuel
  | fuel + 1, n, res, text =>
    match skipSpaces text with
    | 93 :: rest => .ok (.ofEntries res,rest)
    | text => do
      let (x,rest) ← parse text
      let res := assign res (.int n) x.field
      match skipSpaces rest with
      | 93 :: rest => .ok (.ofEntries res,rest)
      | 44 :: rest => parseArray parse fuel (n + 1) res rest
      | rest => .error (.message .expectedArrayEnd (rest.length - 1))

/-- The loop of `parse_object`. -/
def parseObject (parse : Bytes → Parse (Value N × Bytes)) : Nat → List (Key × Value N) → Bytes → Parse (Value N × Bytes)
  | 0, _, _ => .error .outOfFuel
  | fuel + 1, res, text =>
    match skipSpaces text with
    | 125 :: rest => .ok (.ofEntries res,rest)
    | 34 :: text => do
      let (key,rest) ← parseString text
      match skipSpaces rest with
      | 58 :: rest => do
        let (val,rest) ← parse (skipSpaces rest)
        let res := assign res (.str key) val.field
        match skipSpaces rest with
        | 125 :: rest => .ok (.ofEntries res,rest)
        | 44 :: rest => parseObject parse fuel res rest
        | rest => .error (.message .expectedObjectEnd (rest.length - 1))
      | rest => .error (.message .expectedColon rest.length)
    | text => .error (.message .expectedKey text.length)

/-- `parse` with the table of functions by the first character. -/
def parse : Nat → Bytes → Parse (Value N × Bytes)
  | 0, _ => .error .outOfFuel
  | fuel + 1, text => match text with
    | [] => .error (.message (.unexpectedCharacter []) 0)
    | c :: rest =>
      if c = 34 then (parseString rest).map fun p => (.str p.1,p.2)
      else if (48 ≤ c && c ≤ 57) || c = 45 then parseNumber text
      else if c = 116 || c = 102 || c = 110 then parseLiteral text
      else if c = 91 then parseArray (parse fuel) fuel 1 [] rest
      else if c = 123 then parseObject (parse fuel) fuel [] rest
      else .error (.message (.unexpectedCharacter [c]) text.length)

/-- Line and column of a place, as `decode_error` counts them. -/
def position (str : Bytes) (left : Int) : Nat × Nat :=
  let (line,col) := (str.take (str.length - left).toNat).foldl (fun p b => if b = 10 then (p.1 + 1,1) else (p.1,p.2 + 1)) (1,1)
  (line,col + (-left).toNat)

inductive DecodeError where
  | message (m : Message) (position : Nat × Nat)
  | raised (e : Raised)
  | outOfFuel
  deriving DecidableEq, Repr

/-- `json.decode`. Every call of `parse` and every turn of a loop takes a character, so the
length of the text bounds them. -/
def decode (str : Bytes) : Except DecodeError (Value N) :=
  let result : Parse (Value N) := do
    let (res,rest) ← parse (str.length + 1) (skipSpaces str)
    let rest := skipSpaces rest
    if rest ≠ [] then .error (.message .trailingGarbage rest.length) else pure res
  match result with
  | .ok v => .ok v
  | .error (.message m left) => .error (.message m (position str left))
  | .error (.raised e) => .error (.raised e)
  | .error .outOfFuel => .error .outOfFuel

end MyProgram.Json
