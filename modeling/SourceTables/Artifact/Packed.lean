/-!
# `SourceTables.Artifact.Packed`: nested numbers as bytes

Whatever an artifact holds is packed into nested groups of natural numbers. These are written as a
program for a stack: a number is pushed, and a group is made of as many items from the top as it has.
The numbers of the program are bytes of seven bits each, the last byte of each number marked.

Main statement: `Packed.ofBytes?_bytes` (what was written reads back).
-/

set_option autoImplicit false

namespace SourceTables.Artifact

/-- Nested groups of numbers. -/
inductive Packed where
  | number (n : Nat)
  | group (items : List Packed)

/-! ### Numbers as bytes -/

/-- A number in bytes of seven bits, the lowest first; all but the last byte are above 127. -/
def numberBytes (n : Nat) : List UInt8 :=
  if n < 128 then [UInt8.ofNat n] else UInt8.ofNat (n % 128 + 128) :: numberBytes (n / 128)
termination_by n
decreasing_by omega

/-- The numbers of bytes, `low` being the value of the bytes of the current number so far, in units
of which the next byte counts `unit`. -/
def numbersFrom (low unit : Nat) : List UInt8 → Option (List Nat)
  | [] => if unit = 1 then some [] else none
  | b :: rest =>
    if b.toNat < 128 then (numbersFrom 0 1 rest).map ((low + b.toNat * unit) :: ·)
    else numbersFrom (low + (b.toNat - 128) * unit) (unit * 128) rest

/-- The numbers that bytes stand for. -/
def numbers? (bytes : List UInt8) : Option (List Nat) := numbersFrom 0 1 bytes

/-- A number that was written reads back. -/
theorem numbersFrom_numberBytes (n low unit : Nat) (rest : List UInt8) :
    numbersFrom low unit (numberBytes n ++ rest)
      = (numbersFrom 0 1 rest).map ((low + n * unit) :: ·) := by
  induction n using Nat.strongRecOn generalizing low unit with
  | _ n ih =>
    unfold numberBytes
    by_cases h : n < 128
    · have hn : (UInt8.ofNat n).toNat = n := by simp; omega
      rw [if_pos h, List.cons_append, List.nil_append, numbersFrom, hn, if_pos h]
    · have hn : (UInt8.ofNat (n % 128 + 128)).toNat = n % 128 + 128 := by simp; omega
      rw [if_neg h, List.cons_append, numbersFrom, hn, if_neg (by omega), ih (n / 128) (by omega)]
      have hv : low + (n % 128 + 128 - 128) * unit + n / 128 * (unit * 128) = low + n * unit := by
        rw [Nat.add_sub_cancel, Nat.mul_comm unit 128, ← Nat.mul_assoc, Nat.add_assoc, ← Nat.add_mul,
          Nat.mul_comm (n / 128) 128, Nat.mod_add_div]
      rw [hv]

/-- Numbers that were written read back. -/
theorem numbers?_flatMap (ns : List Nat) : numbers? (ns.flatMap numberBytes) = some ns := by
  unfold numbers?
  induction ns with
  | nil => simp [numbersFrom]
  | cons n rest ih => rw [List.flatMap_cons, numbersFrom_numberBytes, ih]; simp

/-! ### Groups as programs -/

namespace Packed

mutual

/-- The program that pushes a value. -/
def program : Packed → List (Nat × Nat)
  | .number n => [(0, n)]
  | .group items => programs items ++ [(1, items.length)]
termination_by structural p => p

/-- The program that pushes some values, one after another. -/
def programs : List Packed → List (Nat × Nat)
  | [] => []
  | p :: rest => p.program ++ programs rest
termination_by structural ps => ps

end

/-- Runs a program; the last value pushed stands first. -/
def run (stack : List Packed) : List (Nat × Nat) → Option (List Packed)
  | [] => some stack
  | (0, n) :: rest => run (.number n :: stack) rest
  | (_ + 1, count) :: rest =>
    if count ≤ stack.length then run (.group (stack.take count).reverse :: stack.drop count) rest
    else none

mutual

/-- The program of a value pushes it. -/
theorem run_program (p : Packed) (stack : List Packed) (rest : List (Nat × Nat)) :
    run stack (p.program ++ rest) = run (p :: stack) rest := by
  cases p with
  | number n => rfl
  | group items =>
    rw [program, List.append_assoc, run_programs items]
    simp [run]

/-- The program of some values pushes them. -/
theorem run_programs (ps : List Packed) (stack : List Packed) (rest : List (Nat × Nat)) :
    run stack (programs ps ++ rest) = run (ps.reverse ++ stack) rest := by
  cases ps with
  | nil => rfl
  | cons p ps =>
    rw [programs, List.append_assoc, run_program p, run_programs ps]
    simp

end

/-- The instructions of a program from their numbers. -/
def instructions? : List Nat → Option (List (Nat × Nat))
  | [] => some []
  | [_] => none
  | op :: n :: rest => (instructions? rest).map ((op, n) :: ·)

/-- The bytes of a value. -/
def bytes (p : Packed) : List UInt8 := (p.program.flatMap fun i => [i.1, i.2]).flatMap numberBytes

/-- The value of bytes. -/
def ofBytes? (bytes : List UInt8) : Option Packed := do
  match ← run [] (← instructions? (← numbers? bytes)) with
  | [p] => some p
  | _ => none

/-- Instructions read back from their numbers. -/
theorem instructions?_flatMap (is : List (Nat × Nat)) :
    instructions? (is.flatMap fun i => [i.1, i.2]) = some is := by
  induction is with
  | nil => rfl
  | cons i rest ih => simp [instructions?, ih]

/-- What was written reads back. -/
theorem ofBytes?_bytes (p : Packed) : ofBytes? p.bytes = some p := by
  have h := run_program p [] []
  rw [List.append_nil] at h
  simp [ofBytes?, bytes, numbers?_flatMap, instructions?_flatMap, h, run]

end Packed

end SourceTables.Artifact
