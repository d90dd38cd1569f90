import ShieldLoader.Fdt.Defs

/-!
# Formatted printing

The functions of `vsprintf.c` behind `printk` and `scnprintf`. A format is its text without the `0`;
the arguments are the slots that `va_arg` takes one after the other. Each character that a
conversion makes goes to the next address of the buffer, if that is before its end. How a `va_list`
in the memory holds its slots is up to the compiler: `slots` says it.
-/

namespace ShieldLoader

open Fuel

/-- The `short` that a number is cut down to. -/
def castShort (x : Int) : Int := (x + 2 ^ 15) % 2 ^ 16 - 2 ^ 15

/-- `simple_strtoll`, with the end of the number. -/
def simpleStrtoll (cp : List UInt8) (base : UInt64) : UInt64 × List UInt8 :=
  if deref cp = '-'.toNat.toUInt8 then
    (-(simpleStrtoull (cp.drop 1) base).1, (simpleStrtoull (cp.drop 1) base).2)
  else simpleStrtoull cp base

/-! ### Decimal digits

The digits come in the order of the code, the lowest first. -/

/-- `put_dec_trunc`. -/
def putDecTrunc (q : UInt32) : List UInt8 :=
  let d1 := (q >>> 4) &&& 0xf
  let d2 := (q >>> 8) &&& 0xf
  let d3 := q >>> 12
  let d0 := 6 * (d3 + d2 + d1) + (q &&& 0xf)
  let q := (d0 * 0xcd) >>> 11
  let d0 := d0 - 10 * q
  let d1 := q + 9 * d3 + 5 * d2 + d1
  (d0 + '0'.toNat.toUInt32).toUInt8 ::
    if d1 = 0 then []
    else
      let q := (d1 * 0xcd) >>> 11
      let d1 := d1 - 10 * q
      let d2 := q + 2 * d2
      (d1 + '0'.toNat.toUInt32).toUInt8 ::
        if d2 = 0 ∧ d3 = 0 then []
        else
          let q := (d2 * 0xd) >>> 7
          let d2 := d2 - 10 * q
          let d3 := q + 4 * d3
          (d2 + '0'.toNat.toUInt32).toUInt8 ::
            if d3 = 0 then []
            else
              let q := (d3 * 0xcd) >>> 11
              let d3 := d3 - 10 * q
              (d3 + '0'.toNat.toUInt32).toUInt8 ::
                if q = 0 then [] else [(q + '0'.toNat.toUInt32).toUInt8]

/-- `put_dec_full`. -/
def putDecFull (q : UInt32) : List UInt8 :=
  let d1 := (q >>> 4) &&& 0xf
  let d2 := (q >>> 8) &&& 0xf
  let d3 := q >>> 12
  let d0 := 6 * (d3 + d2 + d1) + (q &&& 0xf)
  let q := (d0 * 0xcd) >>> 11
  let d0 := d0 - 10 * q
  let d1 := q + 9 * d3 + 5 * d2 + d1
  let q := (d1 * 0xcd) >>> 11
  let d1 := d1 - 10 * q
  let d2 := q + 2 * d2
  let q := (d2 * 0xd) >>> 7
  let d2 := d2 - 10 * q
  let d3 := q + 4 * d3
  let q := (d3 * 0xcd) >>> 11
  let d3 := d3 - 10 * q
  [(d0 + '0'.toNat.toUInt32).toUInt8, (d1 + '0'.toNat.toUInt32).toUInt8,
    (d2 + '0'.toNat.toUInt32).toUInt8, (d3 + '0'.toNat.toUInt32).toUInt8,
    (q + '0'.toNat.toUInt32).toUInt8]

/-- `put_dec`. -/
def putDec (num : UInt64) : List UInt8 :=
  if _h : num < 100000 then putDecTrunc num.toUInt32
  else putDecFull (num % 100000).toUInt32 ++ putDec (num / 100000)
termination_by num.toNat
decreasing_by
  rw [UInt64.lt_iff_toNat_lt] at _h
  rw [UInt64.toNat_div]
  rw [show (100000 : UInt64).toNat = 100000 from rfl] at *
  omega

/-! ### Specifications -/

/-- `enum format_type`. -/
inductive FormatType where
  | none | width | precision | char | str | ptr | percentChar | invalid | longLong | ulong | long
  | ubyte | byte | ushort | short | uint | int | nrchars | sizeT | ptrdiff
deriving DecidableEq

/-- `struct printf_spec`. -/
structure PrintfSpec where
  type : FormatType
  flags : UInt8
  base : UInt8
  qualifier : UInt8
  fieldWidth : Int
  precision : Int
deriving DecidableEq

namespace PrintfSpec

def zeropad : UInt8 := 1
def sign : UInt8 := 2
def plus : UInt8 := 4
def space : UInt8 := 8
def left : UInt8 := 16
def small : UInt8 := 32
def special : UInt8 := 64

/-- `struct printf_spec spec = {0}`. -/
def zero : PrintfSpec := ⟨.none, 0, 0, 0, 0, 0⟩

/-- `spec.flags & flag`. -/
def has (spec : PrintfSpec) (flag : UInt8) : Bool := spec.flags &&& flag ≠ 0

end PrintfSpec

open PrintfSpec

/-! ### Padding -/

/-- `while (--field_width >= 0)`, with what is left of it. A `short` is negative after 32768 rounds. -/
def padLoop (c : UInt8) : Nat → Int → List UInt8 × Int
  | 0, w => ([], w)
  | n + 1, w =>
    let w := castShort (w - 1)
    if 0 ≤ w then (c :: (padLoop c n w).1, (padLoop c n w).2) else ([], w)

/-- `while (i <= --precision)`. -/
def zeroLoop (i : Int) : Nat → Int → List UInt8
  | 0, _ => []
  | n + 1, p =>
    let p := castShort (p - 1)
    if i ≤ p then '0'.toNat.toUInt8 :: zeroLoop i n p else []

/-- `while (len < field_width--)`, with what is left of it. -/
def blankLoop (len : Int) : Nat → Int → List UInt8 × Int
  | 0, w => ([], w)
  | n + 1, w =>
    if len < w then
      (' '.toNat.toUInt8 :: (blankLoop len n (castShort (w - 1))).1,
        (blankLoop len n (castShort (w - 1))).2)
    else ([], castShort (w - 1))

/-- `while (--field_width > 0)`, with what is left of it. -/
def charLoop : Nat → Int → List UInt8 × Int
  | 0, w => ([], w)
  | n + 1, w =>
    let w := castShort (w - 1)
    if 0 < w then (' '.toNat.toUInt8 :: (charLoop n w).1, (charLoop n w).2) else ([], w)

/-! ### `number` -/

/-- `digits[i] | locase`. -/
def numberDigit (locase : UInt8) (i : Nat) : UInt8 :=
  ((bytes "0123456789ABCDEF").getD i 0) ||| locase

/-- The digits for base 8 or 16, the lowest first. -/
def numberDigits (shift : UInt64) (mask : Nat) (locase : UInt8) : Nat → UInt64 → List UInt8
  | 0, _ => []
  | n + 1, num =>
    numberDigit locase (num.toUInt8.toNat &&& mask) ::
      if num >>> shift = 0 then [] else numberDigits shift mask locase n (num >>> shift)

/-- `tmp`. -/
def numberTmp (base locase : UInt8) (num : UInt64) : List UInt8 :=
  if num = 0 then ['0'.toNat.toUInt8]
  else if base ≠ 10 then
    numberDigits (if base = 16 then 4 else 3) (base - 1).toNat locase 64 num
  else putDec num

/-- The sign for a number, or `0`. -/
def numberSign (num : UInt64) (spec : PrintfSpec) : UInt8 :=
  if spec.has sign then
    if num.toInt64 < 0 then '-'.toNat.toUInt8
    else if spec.has plus then '+'.toNat.toUInt8
    else if spec.has space then ' '.toNat.toUInt8
    else 0
  else 0

/-- `number`. -/
def number (num : UInt64) (spec : PrintfSpec) : List UInt8 :=
  let needPfx : Bool := spec.has special && spec.base ≠ 10
  let locase := spec.flags &&& small
  let flags := if spec.has left then spec.flags &&& ~~~zeropad else spec.flags
  let sgn := numberSign num spec
  let num := if sgn = '-'.toNat.toUInt8 then -num else num
  let width := if sgn = 0 then spec.fieldWidth else castShort (spec.fieldWidth - 1)
  let width := if needPfx then castShort (width - 1) else width
  let width := if needPfx && spec.base = 16 then castShort (width - 1) else width
  let tmp := numberTmp spec.base locase num
  let precision := if spec.precision < tmp.length then castShort tmp.length else spec.precision
  let width := castShort (width - precision)
  let lead := if flags &&& (zeropad ||| left) = 0 then padLoop ' '.toNat.toUInt8 65536 width
    else ([], width)
  let pfx := if needPfx then
      if spec.base = 16 then ['0'.toNat.toUInt8, 'X'.toNat.toUInt8 ||| locase] else ['0'.toNat.toUInt8]
    else []
  let c := if flags &&& zeropad ≠ 0 then '0'.toNat.toUInt8 else ' '.toNat.toUInt8
  let fill := if flags &&& left = 0 then padLoop c 65536 lead.2 else ([], lead.2)
  lead.1 ++ (if sgn = 0 then [] else [sgn]) ++ pfx ++ fill.1 ++ zeroLoop tmp.length 65536 precision ++
    tmp.reverse ++ (padLoop ' '.toNat.toUInt8 65536 fill.2).1

/-! ### The buffer -/

/-- The memory, and `str`. -/
structure PrintfBuf where
  mem : Memory
  str : UInt64

/-- `if (str < end) *str = c; ++str`. -/
def PrintfBuf.put (end_ : UInt64) (b : PrintfBuf) (c : UInt8) : PrintfBuf where
  mem := if b.str < end_ then Function.update b.mem b.str c else b.mem
  str := b.str + 1

/-- One character after the other. -/
def PrintfBuf.puts (end_ : UInt64) (b : PrintfBuf) (cs : List UInt8) : PrintfBuf :=
  cs.foldl (PrintfBuf.put end_) b

/-- The copy of the text between two conversions: what fits with `memcpy`, and `str += read`. -/
def PrintfBuf.copy (end_ : UInt64) (b : PrintfBuf) (cs : List UInt8) : PrintfBuf where
  mem := if b.str < end_ then
      fun x => ((cs.take (end_ - b.str).toNat)[(x - b.str).toNat]?).getD (b.mem x)
    else b.mem
  str := b.str + UInt64.ofNat cs.length

/-! ### `string` -/

/-- The characters of a string, which may be in the memory. -/
abbrev StrSrc := Memory → Nat → UInt8

/-- A string that is somewhere else. -/
def StrSrc.lit (s : List UInt8) : StrSrc := fun _ i => s.getD i 0

/-- The string at a pointer. The first page is no place for one. -/
def StrSrc.at (s : UInt64) : StrSrc := fun m i =>
  if s < 4096 then StrSrc.lit (bytes "(null)") m i else m (s + UInt64.ofNat i)

/-- `strnlen`, from character `i` on. -/
def strnlen (s : Nat → UInt8) : Nat → Nat → Nat
  | 0, i => i
  | count + 1, i => if s i = 0 then i else strnlen s count (i + 1)

/-- The loop of `string` over the characters, with `n` of them left. -/
def PrintfBuf.copyStr (end_ : UInt64) (src : StrSrc) : Nat → Nat → PrintfBuf → PrintfBuf
  | 0, _, b => b
  | n + 1, i, b => copyStr end_ src n (i + 1) (b.put end_ (src b.mem i))

/-- `string`. -/
def string (end_ : UInt64) (src : StrSrc) (spec : PrintfSpec) (b : PrintfBuf) : PrintfBuf :=
  let len := castInt (strnlen (src b.mem) (UInt64.ofInt spec.precision).toNat 0)
  let lead := if spec.has left then ([], spec.fieldWidth) else blankLoop len 65536 spec.fieldWidth
  ((b.puts end_ lead.1).copyStr end_ src len.toNat 0).puts end_ (blankLoop len 65536 lead.2).1

/-- `hex_asc`, for a nibble. -/
def hexAsc (x : UInt8) : UInt8 := (bytes "0123456789abcdef").getD x.toNat 0

/-- `pack_hex_byte`. -/
def packHexByte (byte : UInt8) : List UInt8 := [hexAsc (byte >>> 4), hexAsc (byte &&& 0x0f)]

/-- `be` and `le`. -/
def uuidIndex (little : Bool) : List Nat :=
  if little then [3, 2, 1, 0, 5, 4, 7, 6, 8, 9, 10, 11, 12, 13, 14, 15]
  else [0, 1, 2, 3, 4, 5, 6, 7, 8, 9, 10, 11, 12, 13, 14, 15]

/-- `toupper`. -/
def toupper (c : UInt8) : UInt8 :=
  if ('a'.toNat.toUInt8 ≤ c ∧ c ≤ 'z'.toNat.toUInt8) ∨ 223 ≤ c ∧ c ≠ 247 then c - 32 else c

/-- The text of `uuid_string`, for the character behind `U`. -/
def uuidText (m : Memory) (addr : UInt64) (c : UInt8) : List UInt8 :=
  let index := uuidIndex (c = 'L'.toNat.toUInt8 ∨ c = 'l'.toNat.toUInt8)
  let uuid := (List.range 16).flatMap fun i =>
    packHexByte (m (addr + UInt64.ofNat (index.getD i 0))) ++
      if i = 3 ∨ i = 5 ∨ i = 7 ∨ i = 9 then ['-'.toNat.toUInt8] else []
  if c = 'L'.toNat.toUInt8 ∨ c = 'B'.toNat.toUInt8 then uuid.map toupper else uuid

/-- What `vsnprintf` is called with and gives back, if it returns. -/
abbrev VsnprintfFun :=
  Memory → UInt64 → UInt64 → List UInt8 → (Nat → UInt64) → Option (Memory × Int)

/-- `pointer`, with the format from the `p` on. -/
def pointer (slots : Memory → UInt64 → Nat → UInt64) (vsn : VsnprintfFun) (fuel : Nat)
    (end_ : UInt64) (fmt : List UInt8) (ptr : UInt64) (spec : PrintfSpec) (b : PrintfBuf) :
    Option PrintfBuf :=
  let wide := if spec.fieldWidth = -1 then { spec with fieldWidth := 16 } else spec
  if ptr = 0 then some (string end_ (StrSrc.lit (bytes "(null)")) wide b)
  else if deref (fmt.drop 1) = 'U'.toNat.toUInt8 then
    some (string end_ (StrSrc.lit (uuidText b.mem ptr (deref (fmt.drop 2)))) spec b)
  else if deref (fmt.drop 1) = 'V'.toNat.toUInt8 then
    (readText b.mem fuel (b.mem.word ptr)).bind fun text =>
      (vsn b.mem b.str (end_ - b.str) text (slots b.mem (b.mem.word (ptr + 8)))).map fun r =>
        ⟨r.1, b.str + UInt64.ofInt r.2⟩
  else
    let flags := if spec.fieldWidth = -1 then spec.flags ||| small ||| zeropad
      else spec.flags ||| small
    some (b.puts end_ (number ptr { wide with flags := flags, base := 16 }))

/-! ### `format_decode` -/

/-- `skip_atoi`: the number, and what is behind it. -/
def skipAtoi (s : List UInt8) : Int × List UInt8 :=
  ((s.takeWhile isdigit).foldl (fun i c => castInt (i * 10 + c.toNat - 48)) 0, s.dropWhile isdigit)

/-- The flag for a character, or `0`. -/
def formatFlag (c : UInt8) : UInt8 :=
  if c = '-'.toNat.toUInt8 then left
  else if c = '+'.toNat.toUInt8 then plus
  else if c = ' '.toNat.toUInt8 then space
  else if c = '#'.toNat.toUInt8 then special
  else if c = '0'.toNat.toUInt8 then zeropad
  else 0

/-- The type of an integer. -/
def integerType (spec : PrintfSpec) : FormatType :=
  if spec.qualifier = 'L'.toNat.toUInt8 then .longLong
  else if spec.qualifier = 'l'.toNat.toUInt8 then if spec.has sign then .long else .ulong
  else if tolower spec.qualifier = 'z'.toNat.toUInt8 then .sizeT
  else if spec.qualifier = 't'.toNat.toUInt8 then .ptrdiff
  else if spec.qualifier = 'H'.toNat.toUInt8 then if spec.has sign then .byte else .ubyte
  else if spec.qualifier = 'h'.toNat.toUInt8 then if spec.has sign then .short else .ushort
  else if spec.has sign then .int
  else .uint

/-- The `switch` over the conversion: what is behind it, and the specification. -/
def formatDecode.conversion (fmt : List UInt8) (spec : PrintfSpec) : List UInt8 × PrintfSpec :=
  let spec := { spec with base := 10 }
  let c := deref fmt
  let fmt' := fmt.drop 1
  let integer (spec : PrintfSpec) := (fmt', { spec with type := integerType spec })
  if c = 'c'.toNat.toUInt8 then (fmt', { spec with type := .char })
  else if c = 's'.toNat.toUInt8 then (fmt', { spec with type := .str })
  else if c = 'p'.toNat.toUInt8 then (fmt, { spec with type := .ptr })
  else if c = 'n'.toNat.toUInt8 then (fmt', { spec with type := .nrchars })
  else if c = '%'.toNat.toUInt8 then (fmt', { spec with type := .percentChar })
  else if c = 'o'.toNat.toUInt8 then integer { spec with base := 8 }
  else if c = 'x'.toNat.toUInt8 then
    integer { spec with base := 16, flags := spec.flags ||| small }
  else if c = 'X'.toNat.toUInt8 then integer { spec with base := 16 }
  else if c = 'd'.toNat.toUInt8 ∨ c = 'i'.toNat.toUInt8 then
    integer { spec with flags := spec.flags ||| sign }
  else if c = 'u'.toNat.toUInt8 then integer spec
  else (fmt, { spec with type := .invalid })

/-- From the label `qualifier` on. -/
def formatDecode.qualifier (fmt : List UInt8) (spec : PrintfSpec) : List UInt8 × PrintfSpec :=
  let c := deref fmt
  if c = 'h'.toNat.toUInt8 ∨ tolower c = 'l'.toNat.toUInt8 ∨ tolower c = 'z'.toNat.toUInt8 ∨
      c = 't'.toNat.toUInt8 then
    if c = deref (fmt.drop 1) ∧ c = 'l'.toNat.toUInt8 then
      conversion (fmt.drop 2) { spec with qualifier := 'L'.toNat.toUInt8 }
    else if c = deref (fmt.drop 1) ∧ c = 'h'.toNat.toUInt8 then
      conversion (fmt.drop 2) { spec with qualifier := 'H'.toNat.toUInt8 }
    else conversion (fmt.drop 1) { spec with qualifier := c }
  else conversion fmt { spec with qualifier := 255 }

/-- From the label `precision` on. -/
def formatDecode.precision (fmt : List UInt8) (spec : PrintfSpec) : List UInt8 × PrintfSpec :=
  let spec := { spec with precision := -1 }
  if deref fmt = '.'.toNat.toUInt8 then
    let fmt := fmt.drop 1
    if isdigit (deref fmt) then
      let p := castShort (skipAtoi fmt).1
      qualifier (skipAtoi fmt).2 { spec with precision := if p < 0 then 0 else p }
    else if deref fmt = '*'.toNat.toUInt8 then (fmt.drop 1, { spec with type := .precision })
    else qualifier fmt spec
  else qualifier fmt spec

/-- From the field width on. -/
def formatDecode.width (fmt : List UInt8) (spec : PrintfSpec) : List UInt8 × PrintfSpec :=
  if isdigit (deref fmt) then
    precision (skipAtoi fmt).2 { spec with fieldWidth := castShort (skipAtoi fmt).1 }
  else if deref fmt = '*'.toNat.toUInt8 then
    (fmt.drop 1, { spec with fieldWidth := -1, type := .width })
  else precision fmt { spec with fieldWidth := -1 }

/-- `format_decode`: what is behind the token, and the specification. -/
def formatDecode (fmt : List UInt8) (spec : PrintfSpec) : List UInt8 × PrintfSpec :=
  if spec.type = .width then
    let spec := { spec with type := .none }
    if spec.fieldWidth < 0 then
      formatDecode.precision fmt { spec with
        fieldWidth := castShort (-spec.fieldWidth), flags := spec.flags ||| left }
    else formatDecode.precision fmt spec
  else if spec.type = .precision then
    formatDecode.qualifier fmt { spec with
      type := .none, precision := if spec.precision < 0 then 0 else spec.precision }
  else
    let spec := { spec with type := .none }
    if deref fmt ≠ '%'.toNat.toUInt8 then (fmt.dropWhile (· ≠ '%'.toNat.toUInt8), spec)
    else
      let flags := (fmt.drop 1).takeWhile (formatFlag · ≠ 0)
      formatDecode.width ((fmt.drop 1).dropWhile (formatFlag · ≠ 0))
        { spec with flags := flags.foldl (fun f c => f ||| formatFlag c) 0 }

/-! ### `vsnprintf` -/

/-- `isalnum`. -/
def isalnum (c : UInt8) : Bool :=
  isdigit c || ('A'.toNat.toUInt8 ≤ c && c ≤ 'Z'.toNat.toUInt8) ||
    ('a'.toNat.toUInt8 ≤ c && c ≤ 'z'.toNat.toUInt8) || (192 ≤ c && c ≠ 215 && c ≠ 247)

/-- `va_arg (args, int)`. -/
def argInt (arg : UInt64) : Int := castInt arg.toUInt32.toNat

/-- `num`, for an argument. -/
def integerArg (type : FormatType) (arg : UInt64) : UInt64 :=
  match type with
  | .longLong | .ulong | .long | .sizeT | .ptrdiff => arg
  | .ubyte => arg.toUInt8.toUInt64
  | .byte => UInt64.ofInt ((arg.toUInt8.toNat + 128 : Int) % 256 - 128)
  | .ushort => arg.toUInt16.toUInt64
  | .short => UInt64.ofInt (castShort arg.toUInt16.toNat)
  | .int => UInt64.ofInt (argInt arg)
  | _ => arg.toUInt32.toUInt64

/-- The size of what `%n` stores to. -/
def nrcharsSize (qualifier : UInt8) : Nat :=
  if qualifier = 'l'.toNat.toUInt8 ∨ tolower qualifier = 'z'.toNat.toUInt8 then 8 else 4

/-- `*ip = (str - buf)`. -/
def PrintfBuf.storeCount (buf : UInt64) (qualifier : UInt8) (ip : UInt64) (b : PrintfBuf) :
    PrintfBuf :=
  let n := nrcharsSize qualifier
  ⟨b.mem.stored ip n (bigBytes n (b.str - buf).toNat).reverse, b.str⟩

/-- `vsnprintf` in its loop: the format, the specification, the number of arguments taken, and the
buffer. -/
structure Printf where
  fmt : List UInt8
  spec : PrintfSpec
  taken : Nat
  buf : PrintfBuf

/-- A turn of the loop. -/
def vsnprintf.turn (slots : Memory → UInt64 → Nat → UInt64) (vsn : VsnprintfFun)
    (buf end_ : UInt64) (args : Nat → UInt64) (fuel : Nat) (s : Printf) :
    Option (Turn Printf PrintfBuf) :=
  if deref s.fmt = 0 then some (.done s.buf)
  else
    let r := formatDecode s.fmt s.spec
    let arg := args s.taken
    let next (buf : PrintfBuf) (taken : Nat) : Turn Printf PrintfBuf := .next ⟨r.1, r.2, taken, buf⟩
    match r.2.type with
    | .none =>
      some (next (s.buf.copy end_ (s.fmt.take (s.fmt.length - r.1.length))) s.taken)
    | .width => some (.next ⟨r.1, { r.2 with fieldWidth := castShort (argInt arg) }, s.taken + 1, s.buf⟩)
    | .precision =>
      some (.next ⟨r.1, { r.2 with precision := castShort (argInt arg) }, s.taken + 1, s.buf⟩)
    | .char =>
      let lead := if r.2.has left then ([], r.2.fieldWidth) else charLoop 65536 r.2.fieldWidth
      let trail := charLoop 65536 lead.2
      some (.next ⟨r.1, { r.2 with fieldWidth := trail.2 }, s.taken + 1,
        s.buf.puts end_ (lead.1 ++ [arg.toUInt8] ++ trail.1)⟩)
    | .str => some (next (string end_ (StrSrc.at arg) r.2 s.buf) (s.taken + 1))
    | .ptr => (pointer slots vsn fuel end_ r.1 arg r.2 s.buf).map fun buf =>
        .next ⟨r.1.dropWhile isalnum, r.2, s.taken + 1, buf⟩
    | .percentChar | .invalid => some (next (s.buf.put end_ '%'.toNat.toUInt8) s.taken)
    | .nrchars => some (next (s.buf.storeCount buf r.2.qualifier arg) (s.taken + 1))
    | type => some (next (s.buf.puts end_ (number (integerArg type arg) r.2)) (s.taken + 1))

/-- The zero at the end of the buffer. -/
def vsnprintf.finish (size end_ : UInt64) (b : PrintfBuf) : Memory :=
  if 0 < size then
    if b.str < end_ then Function.update b.mem b.str 0 else Function.update b.mem (end_ - 1) 0
  else b.mem

/-- `vsnprintf`: the memory, and what it returns. `BUG_ON` does not return; `%pV` is a call with less
fuel. -/
def vsnprintf (slots : Memory → UInt64 → Nat → UInt64) :
    Memory → UInt64 → UInt64 → List UInt8 → (Nat → UInt64) → Nat → Option (Memory × Int)
  | _, _, _, _, _, 0 => none
  | m, buf, size, fmt, args, fuel + 1 =>
    if castInt size.toUInt32.toNat < 0 then none
    else
      let end_ := if buf + size < buf then -1 else buf + size
      let size := if buf + size < buf then end_ - buf else size
      let vsn : VsnprintfFun := fun m buf size fmt args => vsnprintf slots m buf size fmt args fuel
      (loop (vsnprintf.turn slots vsn buf end_ args) fuel ⟨fmt, PrintfSpec.zero, 0, ⟨m, buf⟩⟩).map
        fun b => (vsnprintf.finish size end_ b, castInt (b.str - buf).toNat)

/-- `vscnprintf`. -/
def vscnprintf (slots : Memory → UInt64 → Nat → UInt64) (m : Memory) (buf size : UInt64)
    (fmt : List UInt8) (args : Nat → UInt64) (fuel : Nat) : Option (Memory × Int) :=
  (vsnprintf slots m buf size fmt args fuel).map fun r =>
    if UInt64.ofInt r.2 < size then r else (r.1, if size ≠ 0 then castInt (size - 1).toNat else 0)

end ShieldLoader
