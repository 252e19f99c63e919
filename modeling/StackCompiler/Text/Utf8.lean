/-!
# UTF-8

Bytes read as UTF-8 text. `Utf8.step` reads one character, or as many bytes as a character
could still have started with; `Utf8.decode?` refuses malformed bytes and `Utf8.decodeLossy`
shows each such stretch as the replacement character.
-/

namespace StackCompiler.Text.Utf8

/-- Whether the byte continues a character. -/
def isContinuation (b : UInt8) : Bool :=
  0x80 ≤ b && b ≤ 0xBF

/-- Whether `second` may follow the first byte of a character of three or four bytes: overlong
forms, surrogates and code points above U+10FFFF are left out. -/
def allowsSecond (first second : UInt8) : Bool :=
  if first == 0xE0 then 0xA0 ≤ second && second ≤ 0xBF
  else if first == 0xED then 0x80 ≤ second && second ≤ 0x9F
  else if first == 0xF0 then 0x90 ≤ second && second ≤ 0xBF
  else if first == 0xF4 then 0x80 ≤ second && second ≤ 0x8F
  else isContinuation second

/-- The six low bits of a continuation byte. -/
def payload (b : UInt8) : Nat :=
  b.toNat % 64

/-- The character that starts with `first`, or `none` for malformed bytes, and how many of the
bytes `rest` belong to it. -/
def step (first : UInt8) (rest : List UInt8) : Option Char × Nat :=
  if first < 0x80 then (some (Char.ofNat first.toNat), 0)
  else if 0xC2 ≤ first && first ≤ 0xDF then
    match rest with
    | b :: _ =>
      if isContinuation b then
        (some (Char.ofNat (first.toNat % 32 * 64 + payload b)), 1)
      else (none, 0)
    | [] => (none, 0)
  else if 0xE0 ≤ first && first ≤ 0xEF then
    match rest with
    | b :: tail =>
      if allowsSecond first b then
        match tail with
        | c :: _ =>
          if isContinuation c then
            (some (Char.ofNat ((first.toNat % 16 * 64 + payload b) * 64 + payload c)), 2)
          else (none, 1)
        | [] => (none, 1)
      else (none, 0)
    | [] => (none, 0)
  else if 0xF0 ≤ first && first ≤ 0xF4 then
    match rest with
    | b :: tail =>
      if allowsSecond first b then
        match tail with
        | c :: tail' =>
          if isContinuation c then
            match tail' with
            | d :: _ =>
              if isContinuation d then
                (some (Char.ofNat
                  (((first.toNat % 8 * 64 + payload b) * 64 + payload c) * 64 + payload d)), 3)
              else (none, 2)
            | [] => (none, 2)
          else (none, 1)
        | [] => (none, 1)
      else (none, 0)
    | [] => (none, 0)
  else (none, 0)

/-- The bytes cut into characters, `none` for each malformed stretch. -/
def pieces : List UInt8 → List (Option Char)
  | [] => []
  | b :: rest => (step b rest).1 :: pieces (rest.drop (step b rest).2)
termination_by bytes => bytes.length
decreasing_by simp only [List.length_drop, List.length_cons]; omega

/-- The text of well-formed bytes. -/
def decode? (bytes : List UInt8) : Option String :=
  ((pieces bytes).mapM id).map String.ofList

/-- The text of any bytes, with U+FFFD for each malformed stretch. -/
def decodeLossy (bytes : List UInt8) : String :=
  String.ofList ((pieces bytes).map fun piece => piece.getD (Char.ofNat 0xFFFD))

/-- The bytes of a text. -/
def encode (s : String) : List UInt8 :=
  s.toList.flatMap String.utf8EncodeChar

end StackCompiler.Text.Utf8
