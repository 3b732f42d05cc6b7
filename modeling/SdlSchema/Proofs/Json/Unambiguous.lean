import SdlSchema.Proofs.Json.Number
import SdlSchema.Proofs.Json.Strings

/-!
# A value is determined by its text

The first character tells the kind of a value (`kind_eq_of_write_eq`), and each
kind has only one way to go on, so a written value is determined together with
the text behind it (`write_inj`).  Only numbers do not mark their own end: what
stands behind a value must not continue a numeral, and a comma, a line break
or the end of a container never does.
-/

namespace SdlSchema

open Decimal

namespace Style

variable {style : Style} {depth : Nat} {c : Char} {rest rest' : List Char}

theorem newline_inj (h : style.newline depth rest = style.newline depth rest') : rest = rest' := by
  cases style with
  | compact => exact h
  | pretty => exact List.append_cancel_left (List.cons.inj h).2

theorem colon_inj (h : style.colon rest = style.colon rest') : rest = rest' := by
  cases style with
  | compact => exact (List.cons.inj h).2
  | pretty => exact (List.cons.inj (List.cons.inj h).2).2

theorem newline_ne (hc : c ≠ '\n') (h : c ∉ rest.head?) :
    style.newline depth rest ≠ c :: rest' := by
  cases style with
  | compact =>
    rintro rfl
    exact h rfl
  | pretty => exact fun heq => hc (List.cons.inj heq).1.symm

theorem ends_newline (h : Ends rest) : Ends (style.newline depth rest) := by
  cases style with
  | compact => exact h
  | pretty =>
    intro c hc
    cases hc
    decide

end Style

namespace Json

variable {style : Style} {depth : Nat}

/-! ## The kind of a value -/

/-- The kind of the values that start with the character, when there are any. -/
def kindOf (c : Char) : Char := if Digit.isDigit c || c = '-' then '0' else c

/-- Numbers are of kind `0`, all other values of the kind of their first character. -/
def kind : Json → Char
  | null => 'n'
  | bool true => 't'
  | bool false => 'f'
  | number _ => '0'
  | string _ => '"'
  | array _ => '['
  | object _ => '{'

theorem kindOf_toChar (d : Digit) : kindOf d.toChar = '0' := by
  revert d
  decide

theorem kindOf_chars (n : Number) : ∃ c more, n.chars = c :: more ∧ kindOf c = '0' := by
  obtain ⟨d, ds, hwhole⟩ := List.exists_cons_of_ne_nil (digits_ne_nil n.numeral.whole)
  rw [← Number.chars_numeral, Numeral.chars_eq, natChars, hwhole]
  cases n.numeral.negative with
  | true => exact ⟨_, _, rfl, by decide⟩
  | false => exact ⟨_, _, rfl, kindOf_toChar d⟩

theorem kindOf_write (style : Style) (depth : Nat) (j : Json) (rest : List Char) :
    ∃ c more, write style depth j rest = c :: more ∧ kindOf c = j.kind := by
  unfold write
  split
  case h_4 n =>
    obtain ⟨c, more, hchars, hkind⟩ := kindOf_chars n
    exact ⟨c, more ++ rest, by rw [hchars, List.cons_append], hkind⟩
  all_goals exact ⟨_, _, rfl, rfl⟩

theorem kind_eq_of_write_eq {j j' : Json} {rest rest' : List Char}
    (h : write style depth j rest = write style depth j' rest') : j.kind = j'.kind := by
  obtain ⟨c, more, hwrite, hkind⟩ := kindOf_write style depth j rest
  obtain ⟨c', more', hwrite', hkind'⟩ := kindOf_write style depth j' rest'
  rw [hwrite, hwrite'] at h
  rw [← hkind, ← hkind', (List.cons.inj h).1]

theorem kind_ne_close (j : Json) : j.kind ≠ ']' := by
  cases j with
  | bool b => cases b <;> simp [kind]
  | _ => simp [kind]

/-- No value starts with the end of an array. -/
theorem head?_write_ne (j : Json) (rest : List Char) :
    ']' ∉ (write style depth j rest).head? := by
  obtain ⟨c, more, hwrite, hkind⟩ := kindOf_write style depth j rest
  rw [hwrite]
  intro hc
  cases hc
  exact kind_ne_close j hkind.symm

/-! ## What stands behind a value -/

theorem ends_close {c : Char} (hc : c = ']' ∨ c = '}') (rest : List Char) :
    Ends (style.newline depth (c :: rest)) := by
  apply Style.ends_newline
  intro c' hc'
  cases hc'
  rcases hc with rfl | rfl <;> decide

theorem ends_comma (rest : List Char) : Ends (',' :: rest) := by
  intro c hc
  cases hc
  decide

theorem ends_writeElements (es : List Json) {rest : List Char} (h : Ends rest) :
    Ends (writeElements style depth es rest) := by
  cases es with
  | nil => simpa only [writeElements] using h
  | cons e es =>
    rw [writeElements]
    exact ends_comma _

theorem ends_writeMembers (ms : List (String × Json)) {rest : List Char} (h : Ends rest) :
    Ends (writeMembers style depth ms rest) := by
  cases ms with
  | nil => simpa only [writeMembers] using h
  | cons m ms =>
    rw [writeMembers]
    exact ends_comma _

/-- The end of a container is not taken for another element. -/
theorem close_ne_comma {c : Char} (hc : c = ']' ∨ c = '}') {rest more : List Char} :
    style.newline depth (c :: rest) ≠ ',' :: more := by
  refine Style.newline_ne (by decide) fun h => ?_
  cases h
  rcases hc with h | h <;> exact absurd h (by decide)

/-! ## Containers and what they hold -/

theorem writeElements_eq_of_array {es es' : List Json} {rest rest' : List Char}
    (h : write style depth (array es) rest = write style depth (array es') rest') :
    writeElements style depth es (style.newline depth (']' :: rest)) =
      writeElements style depth es' (style.newline depth (']' :: rest')) := by
  cases es with
  | nil =>
    cases es' with
    | nil =>
      simp only [write, List.cons.injEq, true_and] at h
      rw [h]
    | cons e' es' =>
      simp only [write] at h
      exact absurd (List.cons.inj h).2.symm (Style.newline_ne (by decide) (head?_write_ne _ _))
  | cons e es =>
    cases es' with
    | nil =>
      simp only [write] at h
      exact absurd (List.cons.inj h).2 (Style.newline_ne (by decide) (head?_write_ne _ _))
    | cons e' es' =>
      simp only [write] at h
      rw [writeElements, writeElements, (List.cons.inj h).2]

theorem writeMembers_eq_of_object {ms ms' : List (String × Json)} {rest rest' : List Char}
    (h : write style depth (object ms) rest = write style depth (object ms') rest') :
    writeMembers style depth ms (style.newline depth ('}' :: rest)) =
      writeMembers style depth ms' (style.newline depth ('}' :: rest')) := by
  cases ms with
  | nil =>
    cases ms' with
    | nil =>
      simp only [write, List.cons.injEq, true_and] at h
      rw [h]
    | cons m' ms' =>
      simp only [write] at h
      exact absurd (List.cons.inj h).2.symm (Style.newline_ne (by decide) (by simp [writeString]))
  | cons m ms =>
    cases ms' with
    | nil =>
      simp only [write] at h
      exact absurd (List.cons.inj h).2 (Style.newline_ne (by decide) (by simp [writeString]))
    | cons m' ms' =>
      simp only [write] at h
      rw [writeMembers, writeMembers, (List.cons.inj h).2]

mutual

/-- A written value is determined together with the text behind it. -/
theorem write_inj (depth : Nat) (j j' : Json) {rest rest' : List Char} (hr : Ends rest)
    (hr' : Ends rest') (h : write style depth j rest = write style depth j' rest') :
    j = j' ∧ rest = rest' := by
  have hkind := kind_eq_of_write_eq h
  match j, j', hkind with
  | null, null, _ => exact ⟨rfl, by simpa [write] using h⟩
  | bool true, bool true, _ => exact ⟨rfl, by simpa [write] using h⟩
  | bool false, bool false, _ => exact ⟨rfl, by simpa [write] using h⟩
  | number n, number n', _ =>
    simp only [write] at h
    obtain ⟨rfl, hrest⟩ := Number.chars_append_inj hr hr' h
    exact ⟨rfl, hrest⟩
  | string s, string s', _ =>
    simp only [write] at h
    obtain ⟨rfl, hrest⟩ := writeString_inj h
    exact ⟨rfl, hrest⟩
  | array es, array es', _ =>
    obtain ⟨rfl, hrest⟩ := writeElements_inj depth es es' (writeElements_eq_of_array h)
    exact ⟨rfl, hrest⟩
  | object ms, object ms', _ =>
    obtain ⟨rfl, hrest⟩ := writeMembers_inj depth ms ms' (writeMembers_eq_of_object h)
    exact ⟨rfl, hrest⟩

theorem writeElements_inj (depth : Nat) (es es' : List Json) {rest rest' : List Char}
    (h : writeElements style depth es (style.newline depth (']' :: rest)) =
      writeElements style depth es' (style.newline depth (']' :: rest'))) :
    es = es' ∧ rest = rest' := by
  match es, es' with
  | [], [] =>
    simp only [writeElements] at h
    exact ⟨rfl, (List.cons.inj (Style.newline_inj h)).2⟩
  | [], e' :: es' =>
    simp only [writeElements] at h
    exact absurd h (close_ne_comma (.inl rfl))
  | e :: es, [] =>
    simp only [writeElements] at h
    exact absurd h.symm (close_ne_comma (.inl rfl))
  | e :: es, e' :: es' =>
    simp only [writeElements] at h
    obtain ⟨rfl, hes⟩ := write_inj (depth + 1) e e'
      (ends_writeElements es (ends_close (.inl rfl) rest))
      (ends_writeElements es' (ends_close (.inl rfl) rest'))
      (Style.newline_inj (List.cons.inj h).2)
    obtain ⟨rfl, hrest⟩ := writeElements_inj depth es es' hes
    exact ⟨rfl, hrest⟩

theorem writeMembers_inj (depth : Nat) (ms ms' : List (String × Json)) {rest rest' : List Char}
    (h : writeMembers style depth ms (style.newline depth ('}' :: rest)) =
      writeMembers style depth ms' (style.newline depth ('}' :: rest'))) :
    ms = ms' ∧ rest = rest' := by
  match ms, ms' with
  | [], [] =>
    simp only [writeMembers] at h
    exact ⟨rfl, (List.cons.inj (Style.newline_inj h)).2⟩
  | [], (k', v') :: ms' =>
    simp only [writeMembers] at h
    exact absurd h (close_ne_comma (.inr rfl))
  | (k, v) :: ms, [] =>
    simp only [writeMembers] at h
    exact absurd h.symm (close_ne_comma (.inr rfl))
  | (k, v) :: ms, (k', v') :: ms' =>
    simp only [writeMembers] at h
    obtain ⟨rfl, hmember⟩ := writeString_inj (Style.newline_inj (List.cons.inj h).2)
    obtain ⟨rfl, hms⟩ := write_inj (depth + 1) v v'
      (ends_writeMembers ms (ends_close (.inr rfl) rest))
      (ends_writeMembers ms' (ends_close (.inr rfl) rest'))
      (Style.colon_inj hmember)
    obtain ⟨rfl, hrest⟩ := writeMembers_inj depth ms ms' hms
    exact ⟨rfl, hrest⟩

end

theorem text_injective (style : Style) : Function.Injective (text style) := by
  intro j j' h
  exact (write_inj 0 j j' ends_nil ends_nil (String.ofList_injective h)).1

end Json

end SdlSchema
