import SourceTables.Json.Parser
import SourceTables.Json.Printer
import SourceTables.Json.Token
import SourceTables.Proofs.Number

/-!
# `SourceTables.Proofs.Json.Parsing`: printed values read back

The tokens of a value are those that a strict reader finds in the printed value. Numbers are known to
have ended only by what follows them, so what follows may not go on with a number.

The theorems:

* `tokensFrom?_quote`: a text in quotes is one token, whatever it holds.
* `tokensFrom?_print`: a printed value is the tokens of the value.
* `length_tokens_le`: a value has no more tokens than characters.
* `parse?_pretty`: a value whose numbers are natural numbers reads back from its printed text, as deep as it
  nests. The line break that files end with makes no difference.
-/

set_option autoImplicit false

namespace SourceTables.Json

/-! ### The tokens of values -/

mutual

/-- The tokens of a value. -/
def Value.tokens : Value → List Token
  | .null => [.null]
  | .bool b => [.bool b]
  | .number t => [.number t]
  | .text s => [.text s]
  | .array [] => [.openBracket, .closeBracket]
  | .array (v :: rest) => .openBracket :: (v.tokens ++ itemTokens rest)
  | .object [] => [.openBrace, .closeBrace]
  | .object (m :: rest) => .openBrace :: (memberToken m ++ memberTokens rest)
termination_by structural v => v

/-- The tokens of the items after the first one, and of the end of their array. -/
def itemTokens : List Value → List Token
  | [] => [.closeBracket]
  | v :: rest => .comma :: (v.tokens ++ itemTokens rest)
termination_by structural vs => vs

/-- The tokens of the members after the first one, and of the end of their object. -/
def memberTokens : List (String × Value) → List Token
  | [] => [.closeBrace]
  | m :: rest => .comma :: (memberToken m ++ memberTokens rest)
termination_by structural ms => ms

/-- The tokens of a member. -/
def memberToken : String × Value → List Token
  | (key, v) => .text key :: .colon :: v.tokens
termination_by structural m => m

end

mutual

/-- Whether all numbers in a value are natural numbers as they are printed. -/
def Value.IsNatural : Value → Prop
  | .number t => ∃ n : Nat, t = toString n
  | .array items => ItemsNatural items
  | .object members => MembersNatural members
  | .null => True
  | .bool _ => True
  | .text _ => True
termination_by structural v => v

/-- Whether all numbers in items are. -/
def ItemsNatural : List Value → Prop
  | [] => True
  | v :: rest => v.IsNatural ∧ ItemsNatural rest
termination_by structural vs => vs

/-- Whether all numbers in members are. -/
def MembersNatural : List (String × Value) → Prop
  | [] => True
  | m :: rest => MemberNatural m ∧ MembersNatural rest
termination_by structural ms => ms

/-- Whether all numbers in a member are. -/
def MemberNatural : String × Value → Prop
  | (_, v) => v.IsNatural
termination_by structural m => m

end

/-! ### Blanks, texts and numbers -/

/-- Whether a number cannot go on. -/
def EndsNumber (rest : List Char) : Prop := ∀ c tail, rest = c :: tail → isNumberChar c = false

/-- Reading goes on after a character. -/
theorem tokensFrom?_cons {strict : Bool} {reading next : Reading} {c : Char} {tokens : List Token}
    (h : step? strict reading c = some (tokens, next)) (rest : List Char) :
    tokensFrom? strict reading (c :: rest) = (tokensFrom? strict next rest).map (tokens ++ ·) := by
  rw [tokensFrom?, h]

/-- A character without a token of its own is passed over. -/
theorem tokensFrom?_pass {strict : Bool} {reading next : Reading} {c : Char}
    (h : step? strict reading c = some ([], next)) (rest : List Char) :
    tokensFrom? strict reading (c :: rest) = tokensFrom? strict next rest := by
  rw [tokensFrom?_cons h]
  exact Option.map_id'

/-- A blank is passed over. -/
theorem tokensFrom?_blank {strict : Bool} {c : Char} (h : isJsonBlank c = true) (rest : List Char) :
    tokensFrom? strict .between (c :: rest) = tokensFrom? strict .between rest := by
  refine tokensFrom?_pass ?_ rest
  unfold step? stepBetween?
  exact if_pos h

/-- The start of a line is passed over. -/
theorem tokensFrom?_newLine {strict : Bool} (level : Nat) (rest : List Char) :
    tokensFrom? strict .between (newLine level ++ rest) = tokensFrom? strict .between rest := by
  have blanks (n : Nat) : tokensFrom? strict .between (List.replicate n ' ' ++ rest)
      = tokensFrom? strict .between rest := by
    induction n with
    | zero => rfl
    | succ n ih =>
      rw [List.replicate_succ, List.cons_append, tokensFrom?_blank (by decide), ih]
  rw [newLine, List.cons_append, tokensFrom?_blank (by decide), blanks]

/-- Hexadecimal digits of control characters read back. -/
theorem hexDigit?_hexChar : ∀ n < 16, hexDigit? (hexChar n) = some n := by decide

/-- A character of a text reads back, escaped or not. -/
theorem tokensFrom?_escapeChar (c : Char) (read rest : List Char) :
    tokensFrom? true (.inText .plain read) (escapeChar c ++ rest)
      = tokensFrom? true (.inText .plain (c :: read)) rest := by
  have simple (letter : Char) (h : letter ≠ 'u') (hletter : simpleEscape? letter = some c) :
      tokensFrom? true (.inText .plain read) (['\\', letter] ++ rest)
        = tokensFrom? true (.inText .plain (c :: read)) rest := by
    simp [tokensFrom?, step?, stepText?, h, hletter]
  unfold escapeChar
  split
  · next h => subst h; exact simple _ (by decide) rfl
  split
  · next h => subst h; exact simple _ (by decide) rfl
  split
  · next h => subst h; exact simple _ (by decide) rfl
  split
  · next h => subst h; exact simple _ (by decide) rfl
  split
  · next h => subst h; exact simple _ (by decide) rfl
  split
  · next h => subst h; exact simple _ (by decide) rfl
  split
  · next h => subst h; exact simple _ (by decide) rfl
  split
  · next h =>
    -- Both digits together are the character, and no half of a pair.
    have hunit : ((0 * 16 + 0) * 16 + 0) * 16 + c.toNat / 16 = c.toNat / 16 := by omega
    have hhigh := hexDigit?_hexChar (c.toNat / 16) (by omega)
    have hlow := hexDigit?_hexChar (c.toNat % 16) (by omega)
    have hzero : hexDigit? '0' = some 0 := by decide
    have hvalue : c.toNat / 16 * 16 + c.toNat % 16 = c.toNat := by omega
    have hafter : afterUnit? c.toNat none read = some (.inText .plain (c :: read)) := by
      rw [afterUnit?]
      simp only [Bool.and_eq_true, decide_eq_true_eq]
      rw [if_neg (by omega), if_neg (by omega), Char.ofNat_toNat]
    simp [tokensFrom?, step?, stepText?, hzero, hhigh, hlow, hvalue, hafter]
  · next hquote hslash _ _ _ _ _ hcontrol =>
    simp [tokensFrom?, step?, stepText?, hquote, hslash, hcontrol]

/-- A text in quotes is one token. -/
theorem tokensFrom?_quote (s : String) (rest : List Char) :
    tokensFrom? true .between (quote s ++ rest)
      = (tokensFrom? true .between rest).map (.text s :: ·) := by
  have body (cs read : List Char) :
      tokensFrom? true (.inText .plain read) (cs.flatMap escapeChar ++ '"' :: rest)
        = (tokensFrom? true .between rest).map (.text (String.ofList (read.reverse ++ cs)) :: ·) := by
    induction cs generalizing read with
    | nil => simp [tokensFrom?, step?, stepText?]
    | cons c cs ih =>
      rw [List.flatMap_cons, List.append_assoc, tokensFrom?_escapeChar, ih]
      simp
  rw [quote, List.cons_append, List.append_assoc, tokensFrom?_pass rfl]
  simp [body]

/-! ### Numbers -/

/-- A number that was written follows the grammar. -/
theorem isNumberText_toString (n : Nat) : isNumberText (toString n).toList = true := by
  have hdigits : ∀ c ∈ (toString n).toList, c.isDigit = true :=
    fun _ => Number.isDigit_of_mem_toString
  have hhead : (toString n).toList.head? ≠ some '-' := by
    intro h
    exact absurd (hdigits '-' (List.mem_of_mem_head? h)) (by decide)
  have htake : (toString n).toList.takeWhile Char.isDigit = (toString n).toList := by
    have h : ((toString n).toList ++ []).takeWhile Char.isDigit
        = (toString n).toList ++ [].takeWhile Char.isDigit := List.takeWhile_append_of_pos hdigits
    simpa only [List.append_nil, List.takeWhile_nil] using h
  have hdrop : (toString n).toList.dropWhile Char.isDigit = [] := by
    have h : ((toString n).toList ++ []).dropWhile Char.isDigit = [].dropWhile Char.isDigit :=
      List.dropWhile_append_of_pos hdigits
    simpa only [List.append_nil, List.dropWhile_nil] using h
  have hzero : (toString n).toList.length = 1 ∨ (toString n).toList.head? ≠ some '0' := by
    by_cases hn : n = 0
    · subst hn
      exact .inl rfl
    · exact .inr (Number.head?_toString (Nat.pos_of_ne_zero hn))
  unfold isNumberText
  simp only [hhead, if_false, htake, hdrop]
  simpa [Number.toString_ne_nil n] using hzero

/-- A number that was written is one token if what follows does not go on with it. -/
theorem tokensFrom?_number (n : Nat) {rest : List Char} (hrest : EndsNumber rest) :
    tokensFrom? true .between ((toString n).toList ++ rest)
      = (tokensFrom? true .between rest).map (.number (toString n) :: ·) := by
  have digit (c : Char) (h : c ∈ (toString n).toList) : isNumberChar c = true := by
    simp [isNumberChar, Number.isDigit_of_mem_toString h]
  have body (cs read : List Char) (hcs : ∀ c ∈ cs, isNumberChar c = true)
      (hall : read.reverse ++ cs = (toString n).toList) :
      tokensFrom? true (.inNumber read) (cs ++ rest)
        = (tokensFrom? true .between rest).map (.number (toString n) :: ·) := by
    induction cs generalizing read with
    | nil =>
      have htoken : numberToken? true read = some (.number (toString n)) := by
        rw [List.append_nil] at hall
        rw [numberToken?, hall, isNumberText_toString, String.ofList_toList]
        rfl
      cases rest with
      | nil => simp [tokensFrom?, htoken]
      | cons c tail =>
        have hc := hrest c tail rfl
        rw [List.nil_append, tokensFrom?, tokensFrom?]
        simp only [step?, hc, htoken]
        cases stepBetween? c with
        | none => rfl
        | some next =>
          obtain ⟨tokens, next⟩ := next
          simp [Function.comp_def]
    | cons c cs ih =>
      have hstep : step? true (.inNumber read) c = some ([], .inNumber (c :: read)) := by
        simp [step?, hcs c (.head _)]
      rw [List.cons_append, tokensFrom?_pass hstep]
      refine ih (c :: read) (fun d hd => hcs d (.tail _ hd)) ?_
      rw [← hall]
      simp
  obtain ⟨c, cs, hcs⟩ := List.exists_cons_of_ne_nil (Number.toString_ne_nil n)
  have hdigit : c.isDigit = true := Number.isDigit_of_mem_toString (hcs ▸ List.mem_cons_self)
  have hfirst : step? true .between c = some ([], .inNumber [c]) := by
    have hblank : ¬ isJsonBlank c = true := by
      intro h
      simp only [isJsonBlank, Bool.or_eq_true, decide_eq_true_eq] at h
      rcases h with ((rfl | rfl) | rfl) | rfl <;> exact absurd hdigit (by decide)
    have hquote : c ≠ '"' := by
      rintro rfl
      exact absurd hdigit (by decide)
    simp [step?, stepBetween?, hblank, hquote, hdigit]
  rw [hcs, List.cons_append, tokensFrom?_pass hfirst]
  exact body cs [c] (fun d hd => digit d (hcs ▸ .tail _ hd)) hcs.symm

/-! ### Values -/

/-- Another character than one of a number ends a number. -/
theorem EndsNumber.cons {c : Char} (h : isNumberChar c = false) (rest : List Char) :
    EndsNumber (c :: rest) := by
  rintro _ _ ⟨⟩
  exact h

/-- A line break ends a number. -/
theorem EndsNumber.newLine (level : Nat) (rest : List Char) :
    EndsNumber (newLine level ++ rest) :=
  .cons (by decide) _

/-- A mark is its own token. -/
theorem tokensFrom?_mark {c : Char} {token : Token}
    (h : stepBetween? c = some ([token], .between)) (rest : List Char) :
    tokensFrom? true .between (c :: rest) = (tokensFrom? true .between rest).map (token :: ·) := by
  rw [tokensFrom?_cons (by rw [step?, h])]
  rfl

/-- What follows the items of an array ends a number. -/
theorem EndsNumber.items (level : Nat) (items : List Value) {rest : List Char}
    (h : EndsNumber rest) : EndsNumber (printItems level items ++ rest) := by
  cases items with
  | nil => exact h
  | cons => exact .cons (by decide) _

/-- What follows the members of an object ends a number. -/
theorem EndsNumber.members (level : Nat) (members : List (String × Value)) {rest : List Char}
    (h : EndsNumber rest) : EndsNumber (printMembers level members ++ rest) := by
  cases members with
  | nil => exact h
  | cons => exact .cons (by decide) _

mutual

/-- A printed value is the tokens of the value. -/
theorem tokensFrom?_print (level : Nat) (v : Value) (hv : v.IsNatural) (rest : List Char)
    (hrest : EndsNumber rest) :
    tokensFrom? true .between (v.print level ++ rest)
      = (tokensFrom? true .between rest).map (v.tokens ++ ·) := by
  cases v with
  | null =>
    simp [Value.print, Value.tokens, tokensFrom?, step?, stepBetween?, isJsonBlank,
      Function.comp_def]
  | bool b =>
    cases b <;>
      simp [Value.print, Value.tokens, tokensFrom?, step?, stepBetween?, isJsonBlank,
        Function.comp_def]
  | number t =>
    obtain ⟨n, rfl⟩ := hv
    exact tokensFrom?_number n hrest
  | text s => exact tokensFrom?_quote s rest
  | array items =>
    cases items with
    | nil =>
      simp only [Value.print, List.cons_append, List.nil_append]
      rw [tokensFrom?_mark rfl, tokensFrom?_mark rfl, Option.map_map]
      rfl
    | cons v items =>
      simp only [Value.print, List.cons_append, List.append_assoc]
      rw [tokensFrom?_mark rfl, tokensFrom?_newLine, tokensFrom?_print (level + 1) v hv.1 _
        (.items _ items (.newLine _ _)), tokensFrom?_printItems (level + 1) level items hv.2]
      simp [Value.tokens, Function.comp_def]
  | object members =>
    cases members with
    | nil =>
      simp only [Value.print, List.cons_append, List.nil_append]
      rw [tokensFrom?_mark rfl, tokensFrom?_mark rfl, Option.map_map]
      rfl
    | cons m members =>
      simp only [Value.print, List.cons_append, List.append_assoc]
      rw [tokensFrom?_mark rfl, tokensFrom?_newLine, tokensFrom?_printMember (level + 1) m hv.1 _
        (.members _ members (.newLine _ _)), tokensFrom?_printMembers (level + 1) level members hv.2]
      simp [Value.tokens, Function.comp_def]

/-- Printed items, up to the end of their array. -/
theorem tokensFrom?_printItems (level outer : Nat) (items : List Value) (h : ItemsNatural items)
    (rest : List Char) :
    tokensFrom? true .between (printItems level items ++ (newLine outer ++ ']' :: rest))
      = (tokensFrom? true .between rest).map (itemTokens items ++ ·) := by
  cases items with
  | nil =>
    rw [printItems, List.nil_append, tokensFrom?_newLine, tokensFrom?_mark rfl]
    rfl
  | cons v items =>
    simp only [printItems, List.cons_append, List.append_assoc]
    rw [tokensFrom?_mark rfl, tokensFrom?_newLine, tokensFrom?_print level v h.1 _
      (.items _ items (.newLine _ _)), tokensFrom?_printItems level outer items h.2]
    simp [itemTokens, Function.comp_def]

/-- Printed members, up to the end of their object. -/
theorem tokensFrom?_printMembers (level outer : Nat) (members : List (String × Value))
    (h : MembersNatural members) (rest : List Char) :
    tokensFrom? true .between (printMembers level members ++ (newLine outer ++ '\x7d' :: rest))
      = (tokensFrom? true .between rest).map (memberTokens members ++ ·) := by
  cases members with
  | nil =>
    rw [printMembers, List.nil_append, tokensFrom?_newLine, tokensFrom?_mark rfl]
    rfl
  | cons m members =>
    simp only [printMembers, List.cons_append, List.append_assoc]
    rw [tokensFrom?_mark rfl, tokensFrom?_newLine, tokensFrom?_printMember level m h.1 _
      (.members _ members (.newLine _ _)), tokensFrom?_printMembers level outer members h.2]
    simp [memberTokens, Function.comp_def]

/-- A printed member. -/
theorem tokensFrom?_printMember (level : Nat) (m : String × Value) (h : MemberNatural m)
    (rest : List Char) (hrest : EndsNumber rest) :
    tokensFrom? true .between (printMember level m ++ rest)
      = (tokensFrom? true .between rest).map (memberToken m ++ ·) := by
  obtain ⟨key, v⟩ := m
  simp only [printMember, List.cons_append, List.append_assoc]
  rw [tokensFrom?_quote, tokensFrom?_mark rfl, tokensFrom?_blank (by decide),
    tokensFrom?_print level v h rest hrest]
  simp [memberToken, Function.comp_def]

end

/-! ### Sizes -/

mutual

/-- A value has no more tokens than characters. -/
theorem length_tokens_le (level : Nat) (v : Value) (hv : v.IsNatural) :
    v.tokens.length ≤ (v.print level).length := by
  cases v with
  | null => simp [Value.tokens, Value.print]
  | bool b => cases b <;> simp [Value.tokens, Value.print]
  | number t =>
    obtain ⟨n, rfl⟩ := hv
    exact List.length_pos_iff.mpr (Number.toString_ne_nil n)
  | text s =>
    simp only [Value.tokens, Value.print, quote, List.length_cons, List.length_append]
    omega
  | array items =>
    cases items with
    | nil => simp [Value.tokens, Value.print]
    | cons v items =>
      have hfirst := length_tokens_le (level + 1) v hv.1
      have hrest := length_itemTokens_le (level + 1) items hv.2
      simp only [Value.tokens, Value.print, List.length_cons, List.length_append]
      omega
  | object members =>
    cases members with
    | nil => simp [Value.tokens, Value.print]
    | cons m members =>
      have hfirst := length_memberToken_le (level + 1) m hv.1
      have hrest := length_memberTokens_le (level + 1) members hv.2
      simp only [Value.tokens, Value.print, List.length_cons, List.length_append]
      omega

/-- Items have no more tokens than characters, with one more for the end of their array. -/
theorem length_itemTokens_le (level : Nat) (items : List Value) (h : ItemsNatural items) :
    (itemTokens items).length ≤ (printItems level items).length + 1 := by
  cases items with
  | nil => exact Nat.le_refl 1
  | cons v items =>
    have hfirst := length_tokens_le level v h.1
    have hrest := length_itemTokens_le level items h.2
    simp only [itemTokens, printItems, List.length_cons, List.length_append]
    omega

/-- Members have no more tokens than characters, with one more for the end of their object. -/
theorem length_memberTokens_le (level : Nat) (members : List (String × Value))
    (h : MembersNatural members) :
    (memberTokens members).length ≤ (printMembers level members).length + 1 := by
  cases members with
  | nil => exact Nat.le_refl 1
  | cons m members =>
    have hfirst := length_memberToken_le level m h.1
    have hrest := length_memberTokens_le level members h.2
    simp only [memberTokens, printMembers, List.length_cons, List.length_append]
    omega

/-- A member has no more tokens than characters. -/
theorem length_memberToken_le (level : Nat) (m : String × Value) (h : MemberNatural m) :
    (memberToken m).length ≤ (printMember level m).length := by
  obtain ⟨key, v⟩ := m
  have hvalue := length_tokens_le level v h
  simp only [memberToken, printMember, quote, List.length_cons, List.length_append]
  omega

end

/-! ### Reading back -/

/-- No value begins with the end of an array. -/
theorem exists_tokens (v : Value) : ∃ token rest, v.tokens = token :: rest ∧ token ≠ .closeBracket := by
  cases v with
  | null | bool | number | text => exact ⟨_, _, rfl, nofun⟩
  | array items => cases items <;> exact ⟨_, _, rfl, nofun⟩
  | object members => cases members <;> exact ⟨_, _, rfl, nofun⟩

mutual

/-- The tokens of a value are that value, given room for each of them. -/
theorem value?_tokens (v : Value) (depth fuel : Nat) (rest : List Token)
    (hdepth : v.tokens.length ≤ depth) (hfuel : 2 * v.tokens.length ≤ fuel) :
    value? depth fuel (v.tokens ++ rest) = some (v, rest) := by
  obtain ⟨first, others, hfirst, -⟩ := exists_tokens v
  have hpos : 0 < v.tokens.length := by
    rw [hfirst]
    exact Nat.zero_lt_succ _
  obtain ⟨fuel, rfl⟩ : ∃ n, fuel = n + 1 := ⟨fuel - 1, by omega⟩
  have hroom : depth ≠ 0 := by omega
  cases v with
  | null | bool | number | text => rfl
  | array items =>
    cases items with
    | nil => simp [Value.tokens, value?, hroom]
    | cons v items =>
      simp only [Value.tokens, List.length_cons, List.length_append] at hdepth hfuel
      have hitems := items?_tokens v items (depth - 1) fuel rest (by omega) (by omega)
      obtain ⟨token, others, htokens, hopen⟩ := exists_tokens v
      rw [htokens, List.cons_append] at hitems
      simp [Value.tokens, value?, hroom, htokens, hopen, hitems]
  | object members =>
    cases members with
    | nil => simp [Value.tokens, value?, hroom]
    | cons m members =>
      simp only [Value.tokens, List.length_cons, List.length_append] at hdepth hfuel
      have hmembers := members?_tokens m members (depth - 1) fuel rest (by omega) (by omega)
      obtain ⟨key, v⟩ := m
      simp only [memberToken, List.cons_append] at hmembers
      simp [Value.tokens, memberToken, value?, hroom, hmembers]
termination_by fuel

/-- Items up to the end of their array. -/
theorem items?_tokens (v : Value) (items : List Value) (depth fuel : Nat) (rest : List Token)
    (hdepth : v.tokens.length + (itemTokens items).length ≤ depth)
    (hfuel : 2 * (v.tokens.length + (itemTokens items).length) ≤ fuel) :
    items? depth fuel (v.tokens ++ (itemTokens items ++ rest)) = some (v :: items, rest) := by
  obtain ⟨fuel, rfl⟩ : ∃ n, fuel = n + 1 := by
    cases items <;> exact ⟨fuel - 1, by simp only [itemTokens, List.length_cons] at hfuel; omega⟩
  cases items with
  | nil =>
    simp only [itemTokens, List.length_cons, List.length_nil] at hdepth hfuel
    rw [items?, value?_tokens v depth fuel _ (by omega) (by omega)]
    rfl
  | cons v' items =>
    simp only [itemTokens, List.length_cons, List.length_append] at hdepth hfuel
    have hitems := items?_tokens v' items depth fuel rest (by omega) (by omega)
    rw [items?, value?_tokens v depth fuel _ (by omega) (by omega)]
    simp [itemTokens, hitems]
termination_by fuel

/-- Members up to the end of their object. -/
theorem members?_tokens (m : String × Value) (members : List (String × Value)) (depth fuel : Nat)
    (rest : List Token) (hdepth : (memberToken m).length + (memberTokens members).length ≤ depth)
    (hfuel : 2 * ((memberToken m).length + (memberTokens members).length) ≤ fuel) :
    members? depth fuel (memberToken m ++ (memberTokens members ++ rest))
      = some (m :: members, rest) := by
  obtain ⟨key, v⟩ := m
  simp only [memberToken, List.length_cons] at hdepth hfuel
  obtain ⟨fuel, rfl⟩ : ∃ n, fuel = n + 1 := ⟨fuel - 1, by omega⟩
  cases members with
  | nil =>
    simp only [memberTokens, List.length_cons, List.length_nil] at hdepth hfuel
    simp only [memberToken, List.cons_append, members?]
    rw [value?_tokens v depth fuel _ (by omega) (by omega)]
    rfl
  | cons m' members =>
    simp only [memberTokens, List.length_cons, List.length_append] at hdepth hfuel
    have hmembers := members?_tokens m' members depth fuel rest (by omega) (by omega)
    simp only [memberToken, List.cons_append, members?]
    rw [value?_tokens v depth fuel _ (by omega) (by omega)]
    simp [memberTokens, hmembers]
termination_by fuel

end

/-- A value reads back from its printed text. -/
theorem parse?_pretty {v : Value} (hv : v.IsNatural) {depth : Nat}
    (hdepth : v.pretty.length ≤ depth) : parse? depth (v.pretty ++ "\n") = some v := by
  have hbreak : EndsNumber ['\n'] := .cons (by decide) _
  have htokens : tokens? true (v.pretty ++ "\n") = some v.tokens := by
    rw [tokens?, Value.pretty, String.toList_append, String.toList_ofList]
    show tokensFrom? true .between (v.print 0 ++ ['\n']) = _
    rw [tokensFrom?_print 0 v hv _ hbreak, tokensFrom?_blank (by decide)]
    simp [tokensFrom?]
  have hlength := length_tokens_le 0 v hv
  rw [Value.pretty, String.length_ofList] at hdepth
  have hvalue := value?_tokens v depth (2 * v.tokens.length + 1) [] (by omega) (by omega)
  rw [List.append_nil] at hvalue
  simp [parse?, htokens, hvalue]

end SourceTables.Json
