import SourceTables.Calendar.Instant
import SourceTables.Number.Integer
import SourceTables.Text.Blank
import SourceTables.Text.Utf8

/-!
# `SourceTables.Calendar.Parser`: dates and points in time as text

A point in time is a date, `T`, `t` or a space, and a time with at most nine digits of fraction that
count; then nothing, `Z`, or an offset from Greenwich. A date alone is its midnight. Texts are read
as bytes: places in them are places of bytes.

A date may also have a month or a day of one digit, or no hyphens, or a sign and a longer year; a
point in time is a date, too.
-/

set_option autoImplicit false

namespace SourceTables.Calendar

/-- Why a text is no point in time. -/
inductive InstantError where
  | tooShort
  | noDate
  | noSeparator
  | noTime
  | unknownZone (name : String)
deriving DecidableEq

/-- The text of an error about `value`. -/
def InstantError.message (value : String) : InstantError → String
  | .tooShort => about "timestamp must contain at least 10 characters"
  | .noDate => about "error parsing date"
  | .noSeparator => about "invalid timestamp separator"
  | .noTime => about "error parsing time"
  | .unknownZone name => "Invalid timezone \"" ++ name ++ "\": failed to parse timezone"
where
  /-- A reason with the text that it is about. -/
  about (reason : String) : String := "Error parsing timestamp from '" ++ value ++ "': " ++ reason

/-- The value of a byte that is an ASCII digit. -/
def digitOfByte? (b : UInt8) : Option Nat :=
  if 0x30 ≤ b && b ≤ 0x39 then some (b.toNat - 0x30) else none

/-- What a pattern asks of a byte. -/
inductive Mark where
  | digit
  | other
  | exactly (c : Char)

/-- Whether a byte is as a mark asks. -/
def Mark.fits (m : Mark) (b : UInt8) : Bool :=
  match m with
  | .digit => (digitOfByte? b).isSome
  | .other => (digitOfByte? b).isNone
  | .exactly c => b.toNat = c.toNat

/-- The marks of a pattern: `d` stands for a digit, `x` for anything else, and other characters for
themselves. -/
def marks (pattern : String) : List Mark :=
  pattern.toList.map fun c => if c = 'd' then .digit else if c = 'x' then .other else .exactly c

/-- Whether bytes begin as a pattern says; only `x` may stand past their end. -/
def fits (pattern : String) (bytes : List UInt8) : Bool := go (marks pattern) bytes
where
  /-- Compares mark by mark. -/
  go : List Mark → List UInt8 → Bool
    | [], _ => true
    | .other :: more, [] => go more []
    | _ :: _, [] => false
    | m :: more, b :: rest => m.fits b && go more rest

/-- The number that the digits from one place on for some length stand for. -/
def numberAt (bytes : List UInt8) (start length : Nat) : Nat :=
  ((bytes.drop start).take length).foldl (fun n b => n * 10 + (digitOfByte? b).getD 0) 0

/-- A date of four, two and two digits. -/
def fullDate? (bytes : List UInt8) : Option Date :=
  if fits "dddd-dd-dd" bytes then
    Date.ofNumbers? (numberAt bytes 0 4) (numberAt bytes 5 2) (numberAt bytes 8 2)
  else none

/-- A fraction of a second as nanoseconds; only the first nine digits count. -/
def fractionValue (digits : List UInt8) : Nat :=
  let used := digits.take 9
  numberAt used 0 used.length * Nat.pow 10 (9 - used.length)

/-- A time that stands after a date and a separator, and the place after it. -/
def time? (bytes : List UInt8) : Option (TimeOfDay × Nat) :=
  let clock := bytes.drop 11
  if fits "dd:dd:dd" clock then
    -- Date, separator and clock take nineteen bytes; the fraction comes after the point.
    let digits := (bytes.drop 20).takeWhile (fun b => (digitOfByte? b).isSome)
    let pointed := fits "." (bytes.drop 19)
    if pointed && digits.isEmpty then none
    else
      let nanoseconds := if pointed then fractionValue digits else 0
      (TimeOfDay.ofNumbers? (numberAt clock 0 2) (numberAt clock 3 2) (numberAt clock 6 2)
        nanoseconds).map fun t => (t, if pointed then 20 + digits.length else 19)
  else if fits "ddddddxx" clock then
    (TimeOfDay.ofNumbers? (numberAt clock 0 2) (numberAt clock 2 2) (numberAt clock 4 2) 0).map
      fun t => (t, 17)
  else none

/-- An offset in seconds, written as a sign with hours and maybe minutes. -/
def offset? (bytes : List UInt8) : Option Int :=
  let size? : Option Nat :=
    if bytes.length = 6 && fits "dd:dd" (bytes.drop 1) then
      some (numberAt bytes 1 2 * 3600 + numberAt bytes 4 2 * 60)
    else if bytes.length = 5 && fits "dddd" (bytes.drop 1) then
      some (numberAt bytes 1 2 * 3600 + numberAt bytes 3 2 * 60)
    else if bytes.length = 3 && fits "dd" (bytes.drop 1) then some (numberAt bytes 1 2 * 3600)
    else none
  match size? with
  | none => none
  | some size =>
    -- An offset is less than a day.
    if 86400 ≤ size then none
    else if fits "+" bytes then some size
    else if fits "-" bytes then some (-Int.ofNat size)
    else none

/-- The names of the zone of Greenwich. -/
def greenwichNames : List String :=
  let names := ["UTC", "UCT", "Universal", "Zulu", "GMT", "GMT0", "GMT+0", "GMT-0", "Greenwich"]
  names ++ names.map ("Etc/" ++ ·)

/-- The zones named by their hours, whose signs are the other way round: `Etc/GMT-14` is ahead. Three
more have names of their own and the same offset all year. -/
def hourZones : List (String × Int) :=
  (List.range 14).map (fun h => ("Etc/GMT-" ++ toString (h + 1), Int.ofNat (h + 1) * 3600))
    ++ (List.range 12).map (fun h => ("Etc/GMT+" ++ toString (h + 1), -Int.ofNat (h + 1) * 3600))
    ++ [("EST", -5 * 3600), ("MST", -7 * 3600), ("HST", -10 * 3600)]

/-- The offset of a zone, written as an offset or by a name. -/
def zone? (name : String) : Option Int :=
  match offset? (Text.encodeUtf8 name) with
  | some offset => some offset
  | none =>
    if greenwichNames.contains name then some 0
    else (hourZones.find? (fun z => z.1 == name)).map Prod.snd

/-- The point in time that a text stands for. -/
def instant? (s : String) : Except InstantError Instant :=
  let bytes := Text.encodeUtf8 s
  if bytes.length < 10 then .error .tooShort
  else match fullDate? bytes with
    | none => .error .noDate
    | some date =>
      if bytes.length = 10 then .ok (.ofLocal date .midnight 0)
      else if !(fits "T" (bytes.drop 10) || fits "t" (bytes.drop 10) || fits " " (bytes.drop 10)) then
        .error .noSeparator
      else match time? bytes with
        | none => .error .noTime
        | some (time, place) =>
          let rest := bytes.drop place
          -- `Z` or `z`.
          if rest.isEmpty || rest = [0x5A] || rest = [0x7A] then .ok (.ofLocal date time 0)
          else
            let name := String.ofList (Text.trimLeft (Text.decodeLossy rest).toList)
            match zone? name with
            | some offset => .ok (.ofLocal date time offset)
            | none => .error (.unknownZone name)

/-- A number that may have a plus sign. -/
def naturalNumber? (cs : List Char) : Option Nat := Number.uint64? (String.ofList cs)

/-- A date whose year has a sign and at least four digits; years end at about 262000. -/
def signedDate? (sign : Char) (rest : List Char) : Option Date := do
  let year := rest.takeWhile (· != '-')
  let monthAndDay ← (rest.dropWhile (· != '-')).tail?
  -- The sign is none of the four digits.
  if year.length < 4 then none
  let month := monthAndDay.takeWhile (· != '-')
  let day ← (monthAndDay.dropWhile (· != '-')).tail?
  let size ← (Number.integer? (sign :: year)).filter (fun y => -262143 ≤ y && y ≤ 262142)
  Date.ofNumbers? size (← naturalNumber? month) (← naturalNumber? day)

/-- A date of at most ten bytes. -/
def shortDate? (bytes : List UInt8) : Option Date :=
  let year := numberAt bytes 0 4
  if fits "dddddddd" bytes && bytes.length = 8 then
    Date.ofNumbers? year (numberAt bytes 4 2) (numberAt bytes 6 2)
  else if fits "dddd-dd-dd" bytes then
    Date.ofNumbers? year (numberAt bytes 5 2) (numberAt bytes 8 2)
  else if fits "dddd-dd-dx" bytes then
    Date.ofNumbers? year (numberAt bytes 5 2) (numberAt bytes 8 1)
  else if fits "dddd-d-ddx" bytes then
    Date.ofNumbers? year (numberAt bytes 5 1) (numberAt bytes 7 2)
  else if fits "dddd-d-dxx" bytes then
    Date.ofNumbers? year (numberAt bytes 5 1) (numberAt bytes 7 1)
  else none

/-- The date that a text stands for. -/
def date? (s : String) : Option Date :=
  match s.toList with
  | '+' :: rest => signedDate? '+' rest
  | '-' :: rest => signedDate? '-' rest
  | _ =>
    let bytes := Text.encodeUtf8 s
    -- The day in Greenwich counts, which need not be the day that is written.
    if 10 < bytes.length then (instant? s).toOption.map (fun t => Date.ofDays t.days)
    else shortDate? bytes

end SourceTables.Calendar
