import RtThread.Finsh.Lexing

/-!
# Escape sequences

Character literals and strings have a scanner each for what stands behind a backslash. They agree on
the letters. The value of octal digits is zero in a character, and a string does not know the
backslash.
-/

namespace RtThread.Finsh
open List

/-- The letters that stand for a byte behind a backslash, and the byte. -/
def letterEscapes : List (Byte × Byte) :=
  [('n'.byte, 0x0A), ('t'.byte, 0x09), ('v'.byte, 0x0B), ('b'.byte, 0x08), ('r'.byte, 0x0D)]

def octalValue (digits : List Byte) : Nat := digits.foldl (fun v d => v * 8 + (d.toNat - 48)) 0

/-- In C, the text stands for the byte behind a backslash. -/
inductive Denotes : List Byte → Byte → Prop
  | letter {c value : Byte} (h : (c, value) ∈ letterEscapes) : Denotes [c] value
  | backslash : Denotes [backslash] backslash
  | octal {digits : List Byte} (hne : digits ≠ []) (hlen : digits.length ≤ 3)
      (hdigits : ∀ d ∈ digits, isOctal d) (hvalue : octalValue digits ≤ 255) :
      Denotes digits (BitVec.ofNat 8 (octalValue digits))

namespace Token
variable {token : Token} {text digits rest : List Byte} {c d value : Byte}

theorem At.charValue_digits (h : token.At (backslash :: (digits ++ singleQuote :: rest)))
    (hne : digits ≠ []) (hdigits : ∀ d ∈ digits, isDigit d) :
    token.charValue = if digits.length < 4 then .ok (0, token.skip (1 + digits.length))
      else .error .outOfBounds := by
  have hother : ∀ d : Byte, isDigit d → d ≠ newline ∧ d ≠ 'n'.byte ∧ d ≠ 't'.byte ∧ d ≠ 'v'.byte ∧
    d ≠ 'b'.byte ∧ d ≠ 'r'.byte ∧ d ≠ backslash ∧ d ≠ singleQuote := by decide
  have hscan := h.tail.scanWhile
    (fun d hd => ⟨hdigits d hd, (hother d (hdigits d hd)).1⟩) (by decide) (by decide)
  obtain ⟨d, ds, rfl⟩ := exists_cons_of_ne_nil hne
  obtain ⟨hnl, hletters⟩ := hother d (hdigits d mem_cons_self)
  have hnext : (token.skip 1).nextChar = (d, token.skip 2) := h.tail.nextChar hnl
  rw [hnext, skip_skip, ← Nat.add_assoc] at hscan
  simp only [charValue, h.nextChar (by decide), hnext, hletters, hscan, prevChar_skip h.eof,
    if_true, if_false]

theorem At.charValue_letter {p : Byte × Byte} (h : token.At (backslash :: p.1 :: rest))
    (hp : p ∈ (backslash, backslash) :: letterEscapes) :
    token.charValue = .ok (p.2, token.skip 2) := by
  have hnl : ∀ p ∈ (backslash, backslash) :: letterEscapes, p.1 ≠ newline :=
    forall_iff_forall_mem.mp (by decide)
  have hnext : (token.skip 1).nextChar = (p.1, token.skip 2) := h.tail.nextChar (hnl p hp)
  simp only [charValue, h.nextChar (by decide), hnext]
  simp only [letterEscapes, mem_cons, not_mem_nil, or_false] at hp
  rcases hp with rfl | rfl | rfl | rfl | rfl | rfl <;> rfl

theorem At.procChar {n : Nat} (h : (token.skip n).At (singleQuote :: rest))
    (hvalue : token.charValue = .ok (value, token.skip n)) :
    token.procChar = .ok (value, token.skip (n + 1), none) := by
  simp only [Token.procChar, hvalue]
  exact congrArg (fun p : Byte × Token => if p.1 = _ then Except.ok (_, p.2, _) else _)
    (h.nextChar (by decide))

theorem At.procEscape_octal (h : token.At (digits ++ d :: rest)) (hne : digits ≠ [])
    (hdigits : ∀ d ∈ digits, isOctal d) (hd : isOctal d = false) (hnl : d ≠ newline) :
    token.procEscape = (BitVec.ofNat 8 (octalValue digits), token.skip digits.length) := by
  have hother : ∀ d : Byte, isOctal d → d - '0'.byte = BitVec.ofNat 8 (d.toNat - 48) ∧ d ≠ newline ∧
    d ≠ 'n'.byte ∧ d ≠ 't'.byte ∧ d ≠ 'v'.byte ∧ d ≠ 'b'.byte ∧ d ≠ 'r'.byte ∧ d ≠ 'f'.byte ∧
    d ≠ 'a'.byte ∧ d ≠ doubleQuote ∧ d ≠ 'x'.byte ∧ d ≠ 'X'.byte := by decide +kernel
  have hscan := h.scanWhile
    (fun d hd => ⟨hdigits d hd, (hother d (hdigits d hd)).2.1⟩) hd hnl
  have hvalue := foldl_digits 8 (fun d hd => (hother d (hdigits d hd)).1) 0
  obtain ⟨c, cs, rfl⟩ := exists_cons_of_ne_nil hne
  have hc := hdigits c mem_cons_self
  obtain ⟨-, hnl', hletters⟩ := hother c hc
  have hnext : token.nextChar = (c, token.skip 1) := h.nextChar hnl'
  rw [hnext] at hscan
  simp only [procEscape, hnext, hletters, or_self, if_false, hc, if_true, hscan,
    prevChar_skip h.eof]
  exact congrArg (·, token.skip _) hvalue

theorem At.procEscape_letter {p : Byte × Byte} (h : token.At (p.1 :: rest))
    (hp : p ∈ (backslash, 0) :: letterEscapes) : token.procEscape = (p.2, token.skip 1) := by
  have hnl : ∀ p ∈ (backslash, 0) :: letterEscapes, p.1 ≠ newline :=
    forall_iff_forall_mem.mp (by decide)
  rw [procEscape, h.nextChar (hnl p hp)]
  simp only [letterEscapes, mem_cons, not_mem_nil, or_false] at hp
  rcases hp with rfl | rfl | rfl | rfl | rfl | rfl <;> rfl

theorem At.procString (h : token.At (backslash :: (text ++ doubleQuote :: rest)))
    (hescape : (token.skip 1).procEscape = (value, (token.skip 1).skip text.length)) :
    token.procString.1.string.headD 0 = value := by
  have hquote := h.tail.skip.nextChar (by decide)
  have heof : ∀ n, (token.skip n).eof = false := fun _ => h.eof
  rw [Token.procString, show finshStringMax = 126 + 1 + 1 from rfl, procStringLoop,
    h.nextChar (by decide)]
  simp only [heof, Bool.false_eq_true, if_false, if_true, hescape, nil_append]
  rw [procStringLoop, hquote]
  have hne : doubleQuote ≠ backslash := by decide
  by_cases hzero : value = 0
  · simp [heof, Buffer.cstr, hzero, hne]
  · have hcstr : Buffer.cstr [value] = [value] := takeWhile_cons_of_pos (by simpa using hzero)
    simp [heof, hcstr, hne]

end Token

/-- The two literals of an escape sequence give the byte of C for the letters and for zero, and the
digits of a character literal fit its buffer up to three of them. -/
theorem escape_agree_iff (rest : List Byte) :
    (∀ (text : List Byte) (value : Byte) (char string : Token), Denotes text value →
      char.At (backslash :: (text ++ singleQuote :: rest)) →
      string.At (backslash :: (text ++ doubleQuote :: rest)) →
      ((char.procChar.map (·.1) = .ok value ∧ string.procString.1.string.headD 0 = value) ↔
        (∃ c, text = [c] ∧ (c, value) ∈ letterEscapes) ∨ value = 0)) ∧
    ∀ (digits : List Byte) (char : Token), digits ≠ [] → (∀ d ∈ digits, isDigit d) →
      char.At (backslash :: (digits ++ singleQuote :: rest)) →
      (char.procChar ≠ .error .outOfBounds ↔ digits.length ≤ 3) := by
  constructor
  · intro text value char string hdenotes hchar hstring
    have hclose := hchar.tail.skip
    rw [Token.skip_skip] at hclose
    cases hdenotes with
    | letter hc =>
      have hfirst := hstring.procString (hstring.tail.procEscape_letter (mem_cons_of_mem _ hc))
      rw [hfirst, hclose.procChar (hchar.charValue_letter (mem_cons_of_mem _ hc))]
      exact iff_of_true ⟨rfl, rfl⟩ (.inl ⟨_, rfl, hc⟩)
    | backslash =>
      have hfirst := hstring.procString (hstring.tail.procEscape_letter mem_cons_self)
      have hother : ∀ p ∈ letterEscapes, p.1 ≠ backslash := forall_iff_forall_mem.mp (by decide)
      rw [hfirst]
      refine iff_of_false (fun h => absurd h.2 (by decide)) ?_
      rintro (⟨c, heq, hc⟩ | hzero)
      · exact hother _ hc (singleton_inj.mp heq).symm
      · exact absurd hzero (by decide)
    | octal hne hlen hdigits hvalue =>
      have hdigit : ∀ d : Byte, isOctal d → isDigit d ∧ letterEscapes.Forall (·.1 ≠ d) := by decide
      have hread := hchar.charValue_digits hne fun d hd => (hdigit d (hdigits d hd)).1
      rw [if_pos (Nat.lt_succ_of_le hlen)] at hread
      have hfirst := hstring.procString
        (hstring.tail.procEscape_octal hne hdigits (by decide) (by decide))
      rw [hfirst, hclose.procChar hread, and_iff_left rfl]
      constructor
      · intro hzero
        exact .inr (Except.ok.inj hzero).symm
      · rintro (⟨c, rfl, hc⟩ | hzero)
        · exact absurd rfl (forall_iff_forall_mem.mp (hdigit c (hdigits c mem_cons_self)).2 _ hc)
        · rw [hzero]
          rfl
  · intro digits char hne hdigits hchar
    have hread := hchar.charValue_digits hne hdigits
    have hclose := hchar.tail.skip
    rw [Token.skip_skip] at hclose
    split at hread
    · rw [hclose.procChar hread]
      exact iff_of_true (by simp) (by omega)
    · rw [Token.procChar, hread]
      exact iff_of_false (fun h => h rfl) (by omega)

theorem escape_agree_iff_zero :
    (Token.init [backslash, '0'.byte, singleQuote]).procChar.map (·.1) = .ok 0 ∧
    (Token.init [backslash, '0'.byte, doubleQuote]).procString.1.string.headD 0 = 0 :=
  ((escape_agree_iff []).1 ['0'.byte] 0 _ _ (.octal (by decide) (by decide) (by decide) (by decide))
    ⟨rfl, rfl⟩ ⟨rfl, rfl⟩).mpr (.inr rfl)

/-- The character literal of the octal code of `A` is zero, the string that holds a backslash is
empty, and a fourth digit is behind the buffer. -/
theorem escape_differs : Denotes ['1'.byte, '0'.byte, '1'.byte] 'A'.byte ∧
    (Token.init [backslash, '1'.byte, '0'.byte, '1'.byte, singleQuote]).procChar.map (·.1) = .ok 0 ∧
    (Token.init [backslash, backslash, doubleQuote]).procString.1.string = [] ∧
    (Token.init (backslash :: replicate 4 '1'.byte)).procChar = .error .outOfBounds :=
  ⟨.octal (by decide) (by decide) (by decide) (by decide), rfl, rfl, rfl⟩

end RtThread.Finsh
