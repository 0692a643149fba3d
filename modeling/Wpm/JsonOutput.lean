import Wpm.Lib.CString

/-!
What is written of a text: the redaction of `logging.c` and the string encoder of `json_output.c`.

The redaction works in place and never makes the text longer; here each of its three loops gives
the new text. The pointers into the text are again the bytes from there on.
-/

namespace Wpm.JsonOutput

open Wpm.Lib.CString

/-! ### Redaction -/

/-- The parameters of a control sequence, and the byte that ends it. A `char` is signed, so that
the bytes from 0x80 on are no such byte. -/
def skipSequence (p : Bytes) : Bytes :=
  (p.dropWhile fun c => ¬(ch '@' ≤ c ∧ c ≤ ch '~')).tail

/-- An operating system command, up to the bell or the escape and backslash that ends it. -/
def skipCommand : Bytes → Bytes
  | [] => []
  | c :: p => if c = 7 then p else if c = 27 ∧ cur p = ch '\\' then p.tail else skipCommand p

/-- The first loop of `wpm_redact_text`: escape sequences and control characters are dropped. -/
def dropControls : ℕ → Bytes → Bytes
  | 0, _ => []
  | _, [] => []
  | fuel + 1, c :: p =>
    if c = 27 then
      if cur p = ch '[' then dropControls fuel (skipSequence p.tail)
      else if cur p = ch ']' then dropControls fuel (skipCommand p.tail)
      else dropControls fuel p
    else if 32 ≤ c ∨ c = 10 ∨ c = 13 ∨ c = 9 then c :: dropControls fuel p
    else dropControls fuel p

/-- The text after the last `@` in the first `n` bytes, or the whole text. -/
def afterUser (n : ℕ) (authority : Bytes) : Bytes :=
  let user := ((authority.take n).reverse.dropWhile (· ≠ ch '@')).length
  authority.drop user

/-- The second loop: the user information of every authority is dropped. -/
def dropUserInfo : ℕ → Bytes → Bytes
  | 0, text => text
  | fuel + 1, text =>
    match strstr (str "://") text with
    | none => text
    | some read =>
      let authority := read.drop 3
      let n := (spanNot (str "/?# \t\r\n") authority).length
      text.take (text.length - read.length) ++ str "://" ++
        dropUserInfo fuel (afterUser n authority)

/-- `wpm_find_protected_field`. -/
def findProtectedField (field : Bytes) : Bytes → Option Bytes
  | [] => none
  | c :: text =>
    if field.isPrefixOf (fold (c :: text)) then some (c :: text) else findProtectedField field text

/-- The rest of a quoted value, from its closing quote on. -/
def skipQuoted (quote : UInt8) : Bytes → Bytes
  | [] => []
  | [c] => if c = quote then [c] else []
  | c :: d :: p =>
    if c = quote then c :: d :: p
    else if c = ch '\\' then skipQuoted quote p
    else skipQuoted quote (d :: p)

/-- The third loop, for one field: its values are replaced by a star. -/
def maskField (field : Bytes) : ℕ → Bytes → Bytes
  | 0, text => text
  | fuel + 1, text =>
    match findProtectedField field text with
    | none => text
    | some read =>
      let before := text.take (text.length - read.length) ++ read.take field.length
      let value := read.drop field.length
      let quoted := cur value = ch '"' ∨ cur value = ch '\''
      let shown := if quoted then [cur value] else []
      let hidden := if quoted then value.tail else value
      let rest := if quoted then skipQuoted (cur value) hidden
        else hidden.drop (spanNot (str "& \t\r\n\"'") hidden).length
      if rest.length < hidden.length then before ++ shown ++ ch '*' :: maskField field fuel rest
      else before ++ shown ++ maskField field fuel hidden

def protectedFields : List Bytes :=
  [str "secret-key=", str "password=", str "token=", str "access_token=", str "api_key="]

/-- `wpm_redact_text`. -/
def redactText (text : Bytes) : Bytes :=
  let text := dropControls text.length text
  let text := dropUserInfo text.length text
  protectedFields.foldl (fun text field => maskField field text.length text) text

/-! ### Strings -/

/-- The inner loop of `json_utf8`, with `remaining` bytes of the character to go. -/
def utf8Rest : ℕ → ℕ → Bytes → Option (ℕ × Bytes)
  | 0, value, p => some (value, p)
  | remaining + 1, value, p =>
    if 0x80 ≤ cur p ∧ cur p ≤ 0xbf then
      utf8Rest remaining (value * 64 + (cur p).toNat % 64) p.tail
    else none

/-- What the first byte of a character beyond ASCII says: its bits, the least code point that may
be spelled so, and how many bytes follow. -/
def utf8Lead (c : UInt8) : Option (ℕ × ℕ × ℕ) :=
  if 0xc2 ≤ c ∧ c ≤ 0xdf then some (c.toNat % 32, 0x80, 1)
  else if 0xe0 ≤ c ∧ c ≤ 0xef then some (c.toNat % 16, 0x800, 2)
  else if 0xf0 ≤ c ∧ c ≤ 0xf4 then some (c.toNat % 8, 0x10000, 3)
  else none

/-- One turn of the loop in `json_utf8`: the text after the character. -/
def utf8Step (c : UInt8) (p : Bytes) : Option Bytes :=
  if c < 0x80 then some p
  else do
    let (value, minimum, remaining) ← utf8Lead c
    let (value, p) ← utf8Rest remaining value p
    if value < minimum ∨ 0x10ffff < value ∨ (0xd800 ≤ value ∧ value ≤ 0xdfff) then none else some p

def utf8From : ℕ → Bytes → Bool
  | _, [] => true
  | 0, _ => false
  | fuel + 1, c :: p => match utf8Step c p with
    | none => false
    | some p => utf8From fuel p

/-- `json_utf8`. -/
def jsonUtf8 (text : Bytes) : Bool := utf8From text.length text

/-- A byte of a text in a JSON string. -/
def encodeByte (c : UInt8) : Bytes :=
  if c = ch '"' ∨ c = ch '\\' then [ch '\\', c]
  else if c < 0x20 then str "\\u00" ++ [hexDigit (c / 16), hexDigit (c % 16)]
  else [c]

/-- `wpm_json_encode_string`: a text as a JSON string once it is redacted, if that is UTF-8. No text
is `null`. -/
def encodeString : Option Bytes → Option Bytes
  | none => some (str "null")
  | some text =>
    let safe := redactText (cstr text)
    if jsonUtf8 safe then some (ch '"' :: safe.flatMap encodeByte ++ [ch '"']) else none

example : encodeString (some (str "see https://a:b@c/d?TOKEN=x\"")) =
    some (str "\"see https://c/d?TOKEN=*\\\"\"") := by decide +kernel

end Wpm.JsonOutput
