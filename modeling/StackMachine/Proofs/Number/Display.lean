import StackMachine.Proofs.Number.Shortest

/-!
# What the text of a number says

The text of a finite number denotes the decimal with the fewest digits among those that
round to the number. So it can be read back, by anyone who rounds to the nearest number,
and two numbers never have the same text. Of the two notations the text has the one with
an exponent just if that is the shorter.
-/

namespace StackMachine

namespace Number

/-- Neither infinite nor a not-a-number. -/
def IsFinite (n : Number) : Prop :=
  n.isNaN = false ∧ n.isInfinite = false

/-- Reads a text as a sign and an exact decimal. -/
def read? (text : String) : Option (Bool × Decimal) :=
  match text.toList with
  | '-' :: cs => (Decimal.read? cs).map (true, ·)
  | cs => (Decimal.read? cs).map (false, ·)

/-- A text stands for a number with this sign and this absolute value. -/
def Denotes (text : String) (negative : Bool) (v : ℚ) : Prop :=
  ∃ d, read? text = some (negative, d) ∧ d.value = v

/-- A text that ends in an exponent, which has a sign and at least two digits. -/
def HasExponent (cs : List Char) : Prop :=
  ∃ front sign digits, cs = front ++ 'e' :: sign :: digits ∧ (sign = '+' ∨ sign = '-') ∧
    Decimal.IsRow digits ∧ 2 ≤ digits.length

variable {n : Number}

theorem isFinite_iff : n.IsFinite ↔ n.rank < 2047 * 2 ^ 52 := by
  rw [IsFinite, isNaN_eq_false_iff, Bool.eq_false_iff, Ne, isInfinite_iff]
  omega

/-! ## The two notations -/

theorem scientific_eq (n : Number) : n.scientific = n.sign ++ n.decimal.scientific := by
  refine Decimal.signExponent_exponential _ _ ?_
  unfold sign
  split <;> decide

theorem read?_sign {cs : List Char} (h : cs.head? ≠ some '-') :
    read? (String.ofList (n.sign ++ cs)) = (Decimal.read? cs).map (n.isNegative, ·) := by
  unfold read? sign
  rw [String.toList_ofList]
  cases n.isNegative with
  | true => rfl
  | false =>
      rw [if_neg Bool.false_ne_true, List.nil_append]
      split
      · exact absurd rfl h
      · rfl

/-- Both notations denote the decimal of a number, with the number's sign. -/
theorem denotes_plain (n : Number) :
    Denotes (String.ofList n.plain) n.isNegative n.decimal.value := by
  obtain ⟨d, hread, hvalue⟩ := Decimal.read?_plain n.decimal
  have hminus : '-' ∉ n.decimal.plain := Decimal.not_mem_plain _ rfl (by decide)
  refine ⟨d, ?_, hvalue⟩
  rw [plain, read?_sign fun h => hminus (List.mem_of_mem_head? h), hread]
  rfl

theorem denotes_scientific (n : Number) :
    Denotes (String.ofList n.scientific) n.isNegative n.decimal.value := by
  refine ⟨n.decimal, ?_, rfl⟩
  rw [scientific_eq, read?_sign (Decimal.head_scientific _ rfl (by decide)),
    Decimal.read?_scientific]
  rfl

theorem hasExponent_scientific (n : Number) : HasExponent n.scientific := by
  rw [scientific_eq, Decimal.scientific, ← List.append_assoc, Decimal.signed]
  refine ⟨_, _, _, rfl, ?_, Decimal.isRow_zeroFill 2 (Decimal.isRow_numeral _), ?_⟩
  · split
    · exact .inr rfl
    · exact .inl rfl
  · rw [Decimal.length_zeroFill]
    exact Nat.le_max_left ..

theorem not_hasExponent_plain (n : Number) : ¬ HasExponent n.plain := by
  rintro ⟨front, sign, digits, heq, -⟩
  have hmem : 'e' ∈ n.plain := by simp [heq]
  rcases List.mem_append.mp hmem with hmem | hmem
  · unfold Number.sign at hmem
    split at hmem
    · exact absurd hmem (by decide)
    · exact absurd hmem (by decide)
  · exact Decimal.not_mem_plain _ rfl (by decide) hmem

/-! ## The text -/

theorem text_of_isFinite (h : n.IsFinite) :
    n.text = String.ofList
      (if n.scientific.length < n.plain.length then n.scientific else n.plain) := by
  rw [text, if_neg (Bool.eq_false_iff.mp h.1), if_neg (Bool.eq_false_iff.mp h.2)]

theorem plain_ne_scientific (n : Number) : n.plain ≠ n.scientific :=
  fun h => n.not_hasExponent_plain (h ▸ n.hasExponent_scientific)

/-- **The exponent is written just if that is shorter.** -/
theorem text_eq_scientific_iff (h : n.IsFinite) :
    n.text = String.ofList n.scientific ↔ n.scientific.length < n.plain.length := by
  rw [text_of_isFinite h, String.ofList_inj]
  split
  · rename_i hlt
    exact iff_of_true rfl hlt
  · rename_i hge
    exact iff_of_false n.plain_ne_scientific hge

theorem text_eq_plain_iff (h : n.IsFinite) :
    n.text = String.ofList n.plain ↔ n.plain.length ≤ n.scientific.length := by
  rw [text_of_isFinite h, String.ofList_inj, ← not_lt]
  split
  · rename_i hlt
    exact iff_of_false n.plain_ne_scientific.symm (not_not_intro hlt)
  · rename_i hge
    exact iff_of_true rfl hge

example : (⟨0x40f86a0000000000⟩ : Number).text = "1e+05" := by decide +kernel

/-- Equally long: the plain form. -/
example : (⟨0x40c3880000000000⟩ : Number).text = "10000" := by decide +kernel

/-- **The text denotes the decimal of the number.** -/
theorem denotes_text (h : n.IsFinite) : Denotes n.text n.isNegative n.decimal.value := by
  rw [text_of_isFinite h]
  split
  · exact n.denotes_scientific
  · exact n.denotes_plain

/-- What is read as a finite number is read as nothing else. -/
theorem nearest_decimal (h : n.IsFinite) (m : Number) :
    Nearest n.isNegative n.decimal.value m ↔ m = n := by
  have hnearest := nearest_of_covers h.1 (decimal_covers (isFinite_iff.mp h))
  exact ⟨fun hm => hnearest.unique hm, fun hm => hm ▸ hnearest⟩

theorem text_of_isInfinite (h : n.isInfinite = true) :
    n.text = if n.isNegative then "-inf" else "inf" := by
  have hnan : n.isNaN = false := by
    rw [isNaN_eq_false_iff, (isInfinite_iff n).mp h]
  rw [text, if_neg (Bool.eq_false_iff.mp hnan), if_pos h]

theorem read?_infinite (h : n.isInfinite = true) : read? n.text = none := by
  rw [text_of_isInfinite h]
  split
  · rfl
  · rfl

theorem text_injective {a b : Number} (ha : a.isNaN = false) (hb : b.isNaN = false)
    (h : a.text = b.text) : a = b := by
  cases hia : a.isInfinite with
  | false =>
      obtain ⟨d, hread, hvalue⟩ := denotes_text ⟨ha, hia⟩
      cases hib : b.isInfinite with
      | false =>
          obtain ⟨d', hread', hvalue'⟩ := denotes_text ⟨hb, hib⟩
          rw [h, hread', Option.some.injEq, Prod.mk.injEq] at hread
          obtain ⟨hsign, rfl⟩ := hread
          rw [← nearest_decimal ⟨hb, hib⟩ a, ← hvalue', hvalue, hsign,
            nearest_decimal ⟨ha, hia⟩ a]
      | true =>
          rw [h, read?_infinite hib] at hread
          exact absurd hread (by simp)
  | true =>
      cases hib : b.isInfinite with
      | false =>
          obtain ⟨d', hread', -⟩ := denotes_text ⟨hb, hib⟩
          rw [← h, read?_infinite hia] at hread'
          exact absurd hread' (by simp)
      | true =>
          rw [text_of_isInfinite hia, text_of_isInfinite hib] at h
          refine ext_rank ?_ (((isInfinite_iff a).mp hia).trans ((isInfinite_iff b).mp hib).symm)
          revert h
          cases a.isNegative <;> cases b.isNegative <;> decide

/-- **The text of a number loses nothing.** The decimal of a finite number is read as this
number and no other, and none with fewer digits is. Both notations denote it with the
number's sign, and so does the text, which is the one with a signed exponent of at least
two digits if that is strictly shorter, and the plain one if not. Numbers with different
bits have different texts, the zeros and the infinities among them. -/
theorem text_loses_nothing :
    (∀ n : Number, n.IsFinite →
      (∀ m, Nearest n.isNegative n.decimal.value m ↔ m = n) ∧
      (∀ d : Decimal, Nearest n.isNegative d.value n →
        (Decimal.numeral n.decimal.digits).length ≤ (Decimal.numeral d.digits).length) ∧
      Denotes n.text n.isNegative n.decimal.value ∧
      (Denotes (String.ofList n.scientific) n.isNegative n.decimal.value ∧
        HasExponent n.scientific) ∧
      (Denotes (String.ofList n.plain) n.isNegative n.decimal.value ∧ ¬ HasExponent n.plain) ∧
      (n.text = String.ofList n.scientific ↔ n.scientific.length < n.plain.length) ∧
      (n.text = String.ofList n.plain ↔ n.plain.length ≤ n.scientific.length)) ∧
    ∀ a b : Number, a.isNaN = false → b.isNaN = false → a ≠ b → a.text ≠ b.text := by
  refine ⟨fun n hn => ⟨nearest_decimal hn, fun d hd => ?_, denotes_text hn,
    ⟨n.denotes_scientific, n.hasExponent_scientific⟩, ⟨n.denotes_plain, n.not_hasExponent_plain⟩,
    text_eq_scientific_iff hn, text_eq_plain_iff hn⟩,
    fun a b ha hb hne heq => hne (text_injective ha hb heq)⟩
  have hvalue : 0 ≤ d.value := by
    unfold Decimal.value
    positivity
  have hrank := isFinite_iff.mp hn
  exact decimal_fewest hrank (covers_of_nearest hrank hvalue hd)

/-- The negative number next to zero, whose digits are told from those of its neighbours
by the exponent alone. -/
theorem text_loses_nothing_least :
    let least : Number := ⟨0x8000000000000001⟩
    least.text = "-5e-324" ∧ (∀ m, Nearest true (5 * 10 ^ (-324 : Int)) m ↔ m = least) ∧
      (⟨0x8000000000000000⟩ : Number).text ≠ (⟨0⟩ : Number).text := by
  intro least
  have hfinite : least.IsFinite := ⟨by decide, by decide⟩
  have hsign : least.isNegative = true := by decide
  have hdecimal : least.decimal = ⟨5, -324⟩ := by decide +kernel
  obtain ⟨hshown, hapart⟩ := text_loses_nothing
  have hread := (hshown least hfinite).1
  rw [hdecimal, hsign] at hread
  exact ⟨by decide +kernel, hread, hapart _ _ (by decide) (by decide) (by decide)⟩

end Number

end StackMachine
