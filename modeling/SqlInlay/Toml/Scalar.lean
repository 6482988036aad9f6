import SqlInlay.Toml.Value

/-!
# Reading strings, numbers and dates

Each reader takes a text and gives a value with what is left, or nothing if the text does not open
with one.  Where a text could open with several kinds of values, the readers look far enough ahead
that the first that fits is the right one.
-/

namespace SqlInlay.Toml

open SqlInlay.Text

/-! ## Characters -/

/-- A blank inside a line. -/
def isSpace (c : Char) : Bool := c == ' ' || c == '\t'

/-- A character that may stand in a comment or a string: no control code but the tab. -/
def isPlain (c : Char) : Bool := c == '\t' || (c.toNat ≥ 0x20 && c.toNat ≠ 0x7F)

/-- A hexadecimal digit. -/
def isHex (c : Char) : Bool :=
  c.isDigit || ('a' ≤ c && c ≤ 'f') || ('A' ≤ c && c ≤ 'F')

/-- The value of a digit of any base up to sixteen. -/
def digitValue (c : Char) : Nat :=
  if c.isDigit then c.toNat - 48 else if 'a' ≤ c then c.toNat - 87 else c.toNat - 55

/-- The value of digits in a base. -/
def valueOf (base : Nat) (digits : Text) : Nat :=
  digits.foldl (fun n c => n * base + digitValue c) 0

/-- What follows a line break. -/
def afterNewline? : Text → Option Text
  | '\n' :: t => some t
  | '\r' :: '\n' :: t => some t
  | _ => none

/-- What follows any blanks and line breaks. -/
def skipBlank : Text → Text
  | [] => []
  | [c] => if isSpace c || c == '\n' then [] else [c]
  | c :: d :: t =>
    if isSpace c || c == '\n' then skipBlank (d :: t)
    else if c = '\r' ∧ d = '\n' then skipBlank t
    else c :: d :: t

/-! ## Strings -/

/-- The character of an escape sequence, and the characters that it takes, where the text follows
the backslash. -/
def escape? : Text → Option (Char × Nat)
  | [] => none
  | c :: t =>
    let coded (n : Nat) : Option (Char × Nat) :=
      let digits := t.take n
      let code := valueOf 16 digits
      if digits.length = n ∧ digits.all isHex ∧ code.isValidChar then some (Char.ofNat code, n + 1)
      else none
    match c with
    | 'b' => some ('\x08', 1)
    | 't' => some ('\t', 1)
    | 'n' => some ('\n', 1)
    | 'f' => some ('\x0c', 1)
    | 'r' => some ('\r', 1)
    | '"' => some ('"', 1)
    | '\\' => some ('\\', 1)
    | 'u' => coded 4
    | 'U' => coded 8
    | _ => none

/-- The body of a string on one line, up to its closing quote. -/
def lineString? (quote : Char) (escapes : Bool) : Text → Option (Text × Text)
  | [] => none
  | c :: t =>
    if c = quote then some ([], t)
    else if c = '\\' ∧ escapes then
      match escape? t with
      | none => none
      | some (d, n) =>
        (lineString? quote escapes (t.drop n)).map fun (body, rest) => (d :: body, rest)
    else if isPlain c then
      (lineString? quote escapes t).map fun (body, rest) => (c :: body, rest)
    else none
termination_by t => t.length
decreasing_by all_goals simp only [List.length_cons, List.length_drop]; omega

/-- The body of a string over several lines.  Up to two quotes may stand in front of the closing
three; a backslash at the end of a line joins it to the next word. -/
def blockString? (quote : Char) (escapes : Bool) : Text → Option (Text × Text)
  | [] => none
  | c :: t =>
    if c = quote then
      let run := 1 + (t.takeWhile (· = quote)).length
      if run ≥ 3 then
        let kept := min (run - 3) 2
        some (fill kept quote, t.drop (kept + 2))
      else
        (blockString? quote escapes (t.drop (run - 1))).map fun (body, rest) =>
          (fill run quote ++ body, rest)
    else if c = '\\' ∧ escapes then
      match afterNewline? (t.dropWhile isSpace) with
      | some rest =>
        let next := t.drop (t.length - (skipBlank rest).length)
        blockString? quote escapes next
      | none =>
        match escape? t with
        | none => none
        | some (d, n) =>
          (blockString? quote escapes (t.drop n)).map fun (body, rest) => (d :: body, rest)
    else if c = '\r' then
      match t with
      | '\n' :: u => (blockString? quote escapes u).map fun (body, rest) => ('\n' :: body, rest)
      | _ => none
    else if c = '\n' ∨ isPlain c then
      (blockString? quote escapes t).map fun (body, rest) => (c :: body, rest)
    else none
termination_by t => t.length
decreasing_by all_goals simp only [List.length_cons, List.length_drop]; omega

/-- A string that may not span lines, as keys are. -/
def shortString? : Text → Option (Text × Text)
  | '"' :: t => lineString? '"' true t
  | '\'' :: t => lineString? '\'' false t
  | _ => none

/-- Any string. -/
def string? (t : Text) : Option (Text × Text) :=
  let body (u : Text) : Text := (afterNewline? u).getD u
  match after? "\"\"\"" t, after? "'''" t with
  | some u, _ => blockString? '"' true (body u)
  | none, some u => blockString? '\'' false (body u)
  | none, none => shortString? t

/-! ## Numbers -/

/-- Further digits of a number, which single underscores may separate; none if an underscore has no
digit behind it. -/
def moreDigits? (isDigit : Char → Bool) : Text → Option (Text × Text)
  | [] => some ([], [])
  | [c] => if isDigit c then some ([c], []) else if c = '_' then none else some ([], [c])
  | c :: d :: t =>
    if isDigit c then (moreDigits? isDigit (d :: t)).map fun (ds, rest) => (c :: ds, rest)
    else if c = '_' then
      if isDigit d then (moreDigits? isDigit t).map fun (ds, rest) => (d :: ds, rest) else none
    else some ([], c :: d :: t)

/-- Digits of a number; at least one. -/
def digits? (isDigit : Char → Bool) : Text → Option (Text × Text)
  | [] => none
  | c :: t =>
    if isDigit c then (moreDigits? isDigit t).map fun (ds, rest) => (c :: ds, rest) else none

/-- A sign, if there is one: whether it is a minus, and what is left. -/
def sign (t : Text) : Bool × Text :=
  match t with
  | '-' :: u => (true, u)
  | '+' :: u => (false, u)
  | _ => (false, t)

/-- Decimal digits without a zero in front. -/
def decimal? : Text → Option (Text × Text)
  | '0' :: t => some (['0'], t)
  | t => digits? Char.isDigit t

/-- An integer that fits 64 bits. -/
def fit (n : Int) : Option Value :=
  if -0x8000000000000000 ≤ n ∧ n ≤ 0x7fffffffffffffff then some (.integer n) else none

/-- An integer behind the marker of its base. -/
def basedInteger? (base : Nat) (isDigit : Char → Bool) (t : Text) : Option (Value × Text) :=
  match digits? isDigit t with
  | some (ds, rest) => (fit (valueOf base ds)).map (·, rest)
  | none => none

/-- A decimal number of digits `mantissa`, times ten to the `exponent`, is too large for a double:
it is nearer to 2^1024 than to any double below. -/
def overflows (mantissa : Text) (exponent : Int) : Bool :=
  let significant := mantissa.dropWhile (· = '0')
  let value := valueOf 10 significant
  let limit := Nat.pow 2 1024 - Nat.pow 2 970
  let magnitude := exponent + significant.length
  if value = 0 ∨ magnitude < 300 then false
  else if magnitude > 400 then true
  else if exponent ≥ 0 then value * Nat.pow 10 exponent.toNat ≥ limit
  else value ≥ limit * Nat.pow 10 (-exponent).toNat

/-- The exponent of a float, behind its letter. -/
def exponent? (t : Text) : Option (Int × Text) :=
  let (negative, u) := sign t
  (digits? Char.isDigit u).map fun (ds, rest) =>
    (if negative then -(valueOf 10 ds : Int) else valueOf 10 ds, rest)

/-- A float of digits read so far, with its exponent behind; a positive one has to be finite. -/
def finishFloat? (negative : Bool) (whole fraction : Text) (t : Text) : Option (Value × Text) :=
  let checked (e : Int) (rest : Text) : Option (Value × Text) :=
    if !negative && overflows (whole ++ fraction) (e - fraction.length) then none
    else some (.float, rest)
  match t with
  | c :: u =>
    if c = 'e' ∨ c = 'E' then
      match exponent? u with
      | some (e, rest) => checked e rest
      | none => none
    else checked 0 t
  | [] => checked 0 t

/-- An integer or a float. -/
def number? (t : Text) : Option (Value × Text) :=
  match t with
  | '0' :: 'x' :: u => basedInteger? 16 isHex u
  | '0' :: 'o' :: u => basedInteger? 8 (fun c => '0' ≤ c && c ≤ '7') u
  | '0' :: 'b' :: u => basedInteger? 2 (fun c => c == '0' || c == '1') u
  | _ =>
    let (negative, u) := sign t
    match after? "inf" u, after? "nan" u with
    | some rest, _ => some (.float, rest)
    | none, some rest => some (.float, rest)
    | none, none =>
      match decimal? u with
      | none => none
      | some (whole, rest) =>
        match rest with
        | '.' :: v =>
          match digits? Char.isDigit v with
          | some (fraction, rest) => finishFloat? negative whole fraction rest
          | none => none
        | c :: _ =>
          if c = 'e' ∨ c = 'E' then finishFloat? negative whole [] rest
          else
            (fit (if negative then -(valueOf 10 whole : Int) else valueOf 10 whole)).map (·, rest)
        | [] =>
          (fit (if negative then -(valueOf 10 whole : Int) else valueOf 10 whole)).map (·, rest)

/-! ## Dates and times -/

/-- A number of exactly `n` digits. -/
def fixed? (n : Nat) (t : Text) : Option (Nat × Text) :=
  let ds := t.take n
  if ds.length = n ∧ ds.all Char.isDigit then some (valueOf 10 ds, t.drop n) else none

/-- The days of a month. -/
def daysIn (year month : Nat) : Nat :=
  if month = 2 then
    if year % 4 = 0 ∧ (year % 100 ≠ 0 ∨ year % 400 = 0) then 29 else 28
  else if month = 4 ∨ month = 6 ∨ month = 9 ∨ month = 11 then 30
  else 31

/-- What follows a date. -/
def afterDate? (t : Text) : Option Text := do
  let (year, t) ← fixed? 4 t
  let (month, t) ← fixed? 2 (← after? "-" t)
  let (day, t) ← fixed? 2 (← after? "-" t)
  if 1 ≤ month ∧ month ≤ 12 ∧ 1 ≤ day ∧ day ≤ daysIn year month then some t else none

/-- A text opens with the hour of a time. -/
def opensTime (t : Text) : Bool :=
  match fixed? 2 t with
  | some (hour, ':' :: _) => hour ≤ 23
  | _ => false

/-- What follows a time of day. -/
def afterTime? (t : Text) : Option Text := do
  let (hour, t) ← fixed? 2 t
  let (minute, t) ← fixed? 2 (← after? ":" t)
  let (second, t) ← fixed? 2 (← after? ":" t)
  if hour ≤ 23 ∧ minute ≤ 59 ∧ second ≤ 60 then
    match t with
    | '.' :: c :: u => if c.isDigit then some (u.dropWhile Char.isDigit) else some t
    | _ => some t
  else none

/-- What follows the offset of a time, if there is one. -/
def afterOffset? (t : Text) : Option Text :=
  match t with
  | 'Z' :: u | 'z' :: u => some u
  | '+' :: u | '-' :: u => do
    let (hour, u) ← fixed? 2 u
    let (minute, u) ← fixed? 2 (← after? ":" u)
    if hour ≤ 23 ∧ minute ≤ 59 then some u else none
  | _ => some t

/-- A date, a time, or both. -/
def dateTime? (t : Text) : Option (Value × Text) :=
  if opensTime t then (afterTime? t).map (.dateTime, ·)
  else
    match afterDate? t with
    | none => none
    | some (c :: u) =>
      if (c = 'T' ∨ c = 't' ∨ c = ' ') ∧ opensTime u then
        ((afterTime? u).bind afterOffset?).map (.dateTime, ·)
      else some (.dateTime, c :: u)
    | some [] => some (.dateTime, [])

/-- A text opens like a date or a time: four digits and a hyphen, or two digits and a colon. -/
def opensDateTime (t : Text) : Bool :=
  match t.dropWhile Char.isDigit with
  | '-' :: _ => (t.takeWhile Char.isDigit).length == 4
  | ':' :: _ => (t.takeWhile Char.isDigit).length == 2
  | _ => false

/-- Any value but an array or a table. -/
def scalar? (t : Text) : Option (Value × Text) :=
  match t with
  | [] => none
  | c :: _ =>
    if c = '"' ∨ c = '\'' then (string? t).map fun (s, rest) => (.string s, rest)
    else if c = 't' then (after? "true" t).map (.boolean true, ·)
    else if c = 'f' then (after? "false" t).map (.boolean false, ·)
    else if opensDateTime t then dateTime? t
    else number? t

end SqlInlay.Toml
