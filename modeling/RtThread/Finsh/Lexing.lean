import RtThread.Finsh.CExpr
import RtThread.Lib.Outcome

/-!
# The scanner on the tokens of expressions

`token_run` finds the tokens that a text spells, one after the other, and stands behind each of
them.
-/

namespace RtThread.Finsh
open Nat
open List

namespace Token

def skip (self : Token) (n : Nat) : Token := { self with position := self.position + n }

/-- The scanner stands in front of a text. -/
structure At (token : Token) (text : List Byte) : Prop where
  eof : token.eof = false
  text : token.line.drop token.position = text

variable {token : Token} {text chars rest : List Byte} {c d : Byte} {p : Byte → Bool}

@[simp]
theorem skip_zero : token.skip 0 = token := rfl

@[simp]
theorem skip_skip (m n : Nat) : (token.skip m).skip n = token.skip (m + n) := by
  simp [skip, add_assoc]

theorem At.skip (h : token.At (chars ++ text)) : (token.skip chars.length).At text := by
  refine ⟨h.eof, ?_⟩
  rw [Token.skip, ← drop_drop, h.text, drop_left]

theorem At.tail (h : token.At (c :: text)) : (token.skip 1).At text :=
  At.skip (show token.At ([c] ++ text) from h)

theorem At.length_le (h : token.At text) : text.length ≤ token.line.length := by
  rw [← h.text, length_drop]
  omega

theorem At.nextChar (h : token.At (c :: text)) (hc : c ≠ newline) :
    token.nextChar = (c, token.skip 1) := by
  have hget : token.line[token.position]? = some c := by
    rw [← add_zero token.position, ← List.getElem?_drop, h.text]
    rfl
  simp only [Token.nextChar, Token.skip, h.eof, hget, hc, if_false, Bool.false_eq_true]

theorem At.nextChar_nil (h : token.At []) :
    token.nextChar = (0, { token with eof := true, position := 0 }) := by
  have hget : token.line[token.position]? = none := by
    rw [← add_zero token.position, ← List.getElem?_drop, h.text]
    rfl
  simp only [Token.nextChar, h.eof, hget, if_false, Bool.false_eq_true]

theorem prevChar_skip (h : token.eof = false) (n : Nat) :
    (token.skip (n + 1)).prevChar = token.skip n := by
  simp [prevChar, Token.skip, h, ← add_assoc]

theorem At.scan (h : token.At (chars ++ d :: rest)) (hchars : ∀ c ∈ chars, p c ∧ c ≠ newline)
    (hd : p d = false) (hnl : d ≠ newline) {fuel : Nat} (hfuel : chars.length ≤ fuel) :
    scan p fuel token.nextChar.1 token.nextChar.2 = (chars, d, token.skip (chars.length + 1)) := by
  induction chars generalizing token fuel with
  | nil =>
    rw [h.nextChar hnl]
    cases fuel with
    | zero => rfl
    | succ fuel => simp [Token.scan, hd]
  | cons c chars ih =>
    obtain ⟨hc, hcnl⟩ := hchars c (by simp)
    rw [h.nextChar hcnl]
    cases fuel with
    | zero => cases hfuel
    | succ fuel =>
      have htail := ih h.tail (fun c' hc' => hchars c' (by simp [hc'])) (le_of_succ_le_succ hfuel)
      simp only [Token.scan, hc, if_true, htail, skip_skip, length_cons, add_comm 1]

theorem nextChar_line (token : Token) : token.nextChar.2.line = token.line := by
  unfold Token.nextChar
  split
  · rfl
  · split
    · rfl
    · split <;> rfl

theorem At.scanWhile (h : token.At (chars ++ d :: rest)) (hchars : ∀ c ∈ chars, p c ∧ c ≠ newline)
    (hd : p d = false) (hnl : d ≠ newline) :
    token.nextChar.2.scanWhile p token.nextChar.1 = (chars, d, token.skip (chars.length + 1)) := by
  have hlen := h.length_le
  rw [length_append] at hlen
  rw [Token.scanWhile, nextChar_line]
  exact h.scan hchars hd hnl (by omega)

theorem isSpace_ne_newline : isSpace c → c ≠ newline := by
  revert c
  decide

theorem At.trimSpace (h : token.At (chars ++ d :: rest)) (hchars : ∀ c ∈ chars, isSpace c)
    (hd : isSpace d = false) (hnl : d ≠ newline) : token.trimSpace = token.skip chars.length := by
  have hscan := h.scanWhile (fun c hc => ⟨hchars c hc, isSpace_ne_newline (hchars c hc)⟩)
    hd hnl
  simp only [Token.trimSpace, hscan]
  exact prevChar_skip h.eof _

theorem At.scan_blanks (h : token.At chars) (hchars : ∀ c ∈ chars, isSpace c) {fuel : Nat}
    (hfuel : chars.length ≤ fuel) :
    (Token.scan isSpace fuel token.nextChar.1 token.nextChar.2).2.2
      = { token with eof := true, position := 0 } := by
  induction chars generalizing token fuel with
  | nil =>
    rw [h.nextChar_nil]
    cases fuel with
    | zero => rfl
    | succ fuel => rfl
  | cons c chars ih =>
    have hc := hchars c (by simp)
    rw [h.nextChar (isSpace_ne_newline hc)]
    cases fuel with
    | zero => cases hfuel
    | succ fuel =>
      have htail := ih h.tail (fun c' hc' => hchars c' (by simp [hc'])) (le_of_succ_le_succ hfuel)
      simp only [Token.scan, hc, if_true, htail]
      rfl

theorem isSeparator_ne_newline : isSeparator c = false → c ≠ newline := by
  revert c
  decide

theorem isSeparator_of_isDigit (h : isDigit c) : isSeparator c = false := by
  simp [isSeparator, h]

theorem At.getString_empty (h : token.At (c :: rest)) (hc : isDigit c ∨ isSeparator c)
    (hnl : c ≠ newline) : token.getString = .ok { token with string := [] } := by
  have hnext := h.nextChar hnl
  have hprev : (token.skip 1).prevChar = token := prevChar_skip h.eof 0
  by_cases hdigit : isDigit c
  · have heof : (token.skip 1).eof = false := h.eof
    simp only [Token.getString, hnext, heof, hdigit, if_true, Bool.false_eq_true, if_false, hprev]
  · have hsep : isSeparator c := hc.resolve_left hdigit
    have hscan :=
      At.scanWhile (p := fun ch => !isSeparator ch) (show token.At ([] ++ c :: rest) from h)
      (by simp) (by simp [hsep]) hnl
    have heof : (token.skip 1).eof = false := h.eof
    rw [hnext] at hscan
    simp only [Token.getString, hnext, heof, hdigit, Bool.false_eq_true, if_false, hscan]
    have hsame :
        { token.skip (List.length ([] : List Byte) + 1) with eof := false } = token.skip 1 := by
      rw [← heof]
      rfl
    rw [hsame, hprev]
    rfl

theorem At.getString_name (h : token.At (chars ++ d :: rest)) (hne : chars ≠ [])
    (hhead : ∀ c ∈ chars.head?, isDigit c = false) (hchars : ∀ c ∈ chars, isSeparator c = false)
    (hd : isSeparator d) (hnl : d ≠ newline) :
    token.getString = .ok { token.skip chars.length with string := chars } ∨
      token.getString = .error .outOfBounds := by
  obtain ⟨c, cs, hcs⟩ := exists_cons_of_ne_nil hne
  have hdigit : isDigit c = false := hhead c (by simp [hcs])
  have hscan := h.scanWhile (p := fun ch => !isSeparator ch)
    (fun c' hc' => ⟨by simp [hchars c' hc'], isSeparator_ne_newline (hchars c' hc')⟩)
    (by simp [hd]) hnl
  have hnext : token.nextChar = (c, token.skip 1) := by
    rw [hcs] at h
    exact h.nextChar (isSeparator_ne_newline (hchars c (by simp [hcs])))
  have heof : (token.skip 1).eof = false := h.eof
  rw [hnext] at hscan
  simp only [Token.getString, hnext, heof, hdigit, Bool.false_eq_true, if_false, hscan]
  split
  · left
    have hsame :
        { token.skip (chars.length + 1) with eof := false } = token.skip (chars.length + 1) := by
      rw [← heof]
      rfl
    rw [hsame, prevChar_skip h.eof]
  · right
    rfl

/-- The accumulator for digits is the number that they spell, cut to its width. -/
theorem foldl_digits {w : Nat} (base : Nat) {digit : Byte → BitVec w} {digits : List Byte}
    (hdigits : ∀ d ∈ digits, digit d = BitVec.ofNat w (d.toNat - 48)) (v : Nat) :
    digits.foldl (fun value ch => value * BitVec.ofNat w base + digit ch) (BitVec.ofNat w v)
      = BitVec.ofNat w (digits.foldl (fun v d => v * base + (d.toNat - 48)) v) := by
  rw [foldl_ext _ (fun value d => value * BitVec.ofNat w base + BitVec.ofNat w (d.toNat - 48)) _
    fun value d hd => by rw [hdigits d hd]]
  exact foldl_hom (BitVec.ofNat w) fun v d => by simp [BitVec.ofNat_add, BitVec.ofNat_mul]

theorem separator_other : isSeparator d → isDigit d = false ∧ isOctal d = false ∧
    ¬(d = 'x'.byte ∨ d = 'X'.byte) ∧ ¬(d = 'b'.byte ∨ d = 'B'.byte) ∧
    ¬(d = 'l'.byte ∨ d = 'L'.byte) := by
  revert d
  decide

theorem At.procNumber_zero (h : token.At ('0'.byte :: c :: rest)) (hnl : c ≠ newline)
    (hhex : ¬(c = 'x'.byte ∨ c = 'X'.byte)) (hbinary : ¬(c = 'b'.byte ∨ c = 'B'.byte))
    (hoctal : isOctal c = false) :
    token.procNumber = .ok { token.skip 1 with value := 0, currentToken := .valueInt } := by
  simp only [Token.procNumber, h.nextChar (by decide), if_true, h.tail.nextChar hnl, hhex, hbinary,
    if_false, hoctal, Bool.false_eq_true]
  rw [skip_skip, prevChar_skip h.eof]

theorem At.procNumber_decimal (h : token.At (chars ++ c :: rest)) (hdigits : ∀ d ∈ chars, isDigit d)
    (hfirst : ∃ d ds, chars = d :: ds ∧ d ≠ '0'.byte) (hc : isDigit c = false) (hnl : c ≠ newline) :
    token.procNumber = .ok ({ token.skip (chars.length + 1) with
      value := BitVec.ofNat 32 (decimalValue chars), currentToken := .valueInt }.suffix c) := by
  obtain ⟨d, ds, hds, hd⟩ := hfirst
  have hnewline : ∀ d ∈ chars, isDigit d ∧ d ≠ newline := fun d hd =>
    ⟨hdigits d hd, isSeparator_ne_newline (isSeparator_of_isDigit (hdigits d hd))⟩
  have hnext : token.nextChar = (d, token.skip 1) := by
    rw [hds] at h
    exact h.nextChar (hnewline d (by simp [hds])).2
  have hscan := h.scanWhile hnewline hc hnl
  rw [hnext] at hscan
  simp only [Token.procNumber, hnext, hd, if_false, hscan]
  have hdigit : ∀ d : Byte, isDigit d →
    (d - '0'.byte).setWidth 32 = BitVec.ofNat 32 (d.toNat - 48) := by decide +kernel
  rw [decimalValue, ← foldl_digits 10 fun d hd => hdigit d (hdigits d hd)]
  rfl

theorem At.procNumber (h : token.At (chars ++ d :: rest)) (hvalid : (CToken.literal chars).Valid)
    (hd : isSeparator d) (hnl : d ≠ newline) :
    token.procNumber = .ok { token.skip chars.length with
      value := BitVec.ofNat 32 (decimalValue chars), currentToken := .valueInt } := by
  obtain ⟨hdigits, hfirst⟩ := hvalid
  obtain ⟨hdigit, hoctal, hhex, hbinary, hsuffix⟩ := separator_other hd
  rcases hfirst with rfl | hfirst
  · exact h.procNumber_zero hnl hhex hbinary hoctal
  · rw [h.procNumber_decimal hdigits hfirst hdigit hnl, suffix, if_neg hsuffix]
    simp [prevChar, Token.skip, h.eof, ← add_assoc]

theorem At.double_one (h : token.At (d :: rest)) (hd : d ≠ newline) (hne : d ≠ c)
    (two one : TokenType) : token.double c two one = { token with currentToken := one } := by
  have hprev : (token.skip 1).prevChar = token := prevChar_skip h.eof 0
  simp only [double, h.nextChar hd, hne, if_false, hprev]

theorem procOperator_single {type : TokenType} (h : tokenOfChar c = some type) :
    token.procOperator c = .ok ({ token with currentToken := type }, none) := by
  simp only [procOperator, h]

/-- The `switch` of `token_run` takes the punctuator. -/
def TakesPunct (token : Token) (type : TokenType) : Prop :=
  token.nextChar.2.procOperator token.nextChar.1
    = .ok ({ token.skip (CToken.punct type).text.length with currentToken := type }, none)

theorem At.procOperator {type : TokenType} (hvalid : (CToken.punct type).Valid)
    (h : token.At ((CToken.punct type).text ++ rest)) (hends : (CToken.punct type).Ends rest)
    (hrest : type = .semicolon ∨ ∃ d ds, rest = d :: ds ∧ d ≠ newline) : token.TakesPunct type := by
  have hsingle : ∀ c : Char, (CToken.punct type).text = [c.byte] →
      tokenOfChar c.byte = some type → ∀ (_ : c.byte ≠ newline := by decide),
      token.TakesPunct type := by
    intro c htext htoken hc
    unfold TakesPunct
    rw [htext] at h ⊢
    rw [h.nextChar hc]
    exact procOperator_single htoken
  have htwo : ∀ (c : Char) (one : TokenType), (CToken.punct type).text = [c.byte, c.byte] →
      (∀ token : Token, token.procOperator c.byte = .ok (token.double c.byte type one, none)) →
      ∀ (_ : c.byte ≠ newline := by decide), token.TakesPunct type := by
    intro c one htext hdouble hc
    unfold TakesPunct
    rw [htext] at h ⊢
    rw [h.nextChar hc, hdouble, double, h.tail.nextChar hc]
    simp only [if_true, skip_skip]
    rfl
  have hone : ∀ (c : Char) (two : TokenType), (CToken.punct type).text = [c.byte] →
      (∀ token : Token, token.procOperator c.byte = .ok (token.double c.byte two type, none)) →
      rest.head? ≠ some c.byte → ∀ (_ : c.byte ≠ newline := by decide)
      (_ : type ≠ .semicolon := by decide), token.TakesPunct type := by
    intro c two htext hdouble hhead hc hsemi
    obtain ⟨d, ds, hds, hd⟩ := hrest.resolve_left hsemi
    unfold TakesPunct
    rw [htext] at h ⊢
    have htail := h.tail
    rw [hds] at htail hhead
    rw [h.nextChar hc, hdouble, htail.double_one hd (by simpa using hhead)]
    rfl
  cases type with
  | semicolon => exact hsingle ';' rfl rfl
  | mul => exact hsingle '*' rfl rfl
  | mod => exact hsingle '%' rfl rfl
  | assign => exact hsingle '=' rfl rfl
  | and => exact hsingle '&' rfl rfl
  | or => exact hsingle '|' rfl rfl
  | xor => exact hsingle '^' rfl rfl
  | bitwise => exact hsingle '~' rfl rfl
  | inc => exact htwo '+' .add rfl fun _ => rfl
  | dec => exact htwo '-' .sub rfl fun _ => rfl
  | shl => exact htwo '<' .bad rfl fun _ => rfl
  | shr => exact htwo '>' .bad rfl fun _ => rfl
  | add => exact hone '+' .inc rfl (fun _ => rfl) hends
  | sub => exact hone '-' .dec rfl (fun _ => rfl) hends
  | div => exact hone '/' .eof rfl (fun _ => rfl) hends
  | _ => exact absurd rfl hvalid

end Token

def CToken.type : CToken → TokenType
  | identifier _ => .identifier
  | literal _ => .valueInt
  | punct type => type

structure Token.Shows (token : Token) (t : CToken) : Prop where
  type : token.currentToken = t.type
  name : ∀ x, t = .identifier x → token.string = x
  value : ∀ digits, t = .literal digits → token.value = BitVec.ofNat 32 (decimalValue digits)

variable {t : CToken} {ts : List CToken}

theorem CToken.Valid.text_cons (h : t.Valid) :
    ∃ c cs, t.text = c :: cs ∧ isSpace c = false ∧ c ≠ newline := by
  have hname : ∀ c : Byte, isSeparator c = false → isSpace c = false ∧ c ≠ newline := by decide
  cases t with
  | identifier name =>
    obtain ⟨⟨c, cs, hcs, -⟩, hchars, -⟩ := h
    exact ⟨c, cs, hcs, hname c (hchars c (by simp [hcs]))⟩
  | literal digits =>
    obtain ⟨hdigits, hfirst⟩ := h
    have hne : digits ≠ [] := by
      rcases hfirst with rfl | ⟨d, ds, rfl, -⟩ <;> simp
    obtain ⟨d, ds, hds⟩ := exists_cons_of_ne_nil hne
    exact ⟨d, ds, hds, hname d (Token.isSeparator_of_isDigit (hdigits d (by simp [hds])))⟩
  | punct type =>
    cases type
    all_goals first | exact absurd rfl h | exact ⟨_, _, rfl, by decide, by decide⟩

theorem Spells.head_ne_newline {text : List Byte} (h : Spells ts text) :
    ∀ c ∈ text.head?, c ≠ newline := by
  intro c hc
  cases h with
  | nil hblanks => exact Token.isSpace_ne_newline (hblanks c (mem_of_mem_head? hc))
  | @cons t ts blanks rest hblanks hvalid hends h =>
    cases blanks with
    | nil =>
      obtain ⟨c', cs, htext, -, hnl⟩ := hvalid.text_cons
      rw [htext] at hc
      cases hc
      exact hnl
    | cons b blanks =>
      cases hc
      exact Token.isSpace_ne_newline (hblanks c (by simp))

theorem Spells.ne_nil {text : List Byte} (h : Spells (t :: ts) text) : text ≠ [] := by
  cases h with
  | @cons t ts blanks rest hblanks hvalid hends h =>
    obtain ⟨c, cs, htext, -, -⟩ := hvalid.text_cons
    simp [htext]

namespace Token
variable {token : Token} {text rest : List Byte} {start trimmed : Token}

theorem At.withString (h : token.At text) (string : List Byte) : { token with string }.At text :=
  ⟨h.eof, h.text⟩

theorem run_of_name (htrim : start.trimSpace = trimmed)
    (hget : trimmed.getString = .ok token) (heof : token.eof = false) (hname : token.string ≠ []) :
    start.run = .ok ({ token with currentToken := (tokenMatchName token.string).getD .identifier },
      none) := by
  have hend : ¬token.eof = true := by simp [heof]
  unfold Token.run
  rw [htrim, hget]
  exact (if_neg hend).trans (if_pos hname)

theorem run_of_empty (htrim : start.trimSpace = trimmed)
    (hget : trimmed.getString = .ok token) (heof : token.eof = false) (hname : token.string = []) :
    start.run = token.nextChar.2.procOperator token.nextChar.1 := by
  have hend : ¬token.eof = true := by simp [heof]
  unfold Token.run
  rw [htrim, hget]
  exact (if_neg hend).trans (if_neg (not_not.mpr hname))

theorem procOperator_digit {c : Byte} (hdigit : isDigit c) :
    token.procOperator c = token.prevChar.procNumber.map fun token => (token, none) := by
  have hother : ∀ c : Byte, isDigit c → tokenOfChar c = none ∧ c ≠ '+'.byte ∧ c ≠ '-'.byte ∧
      c ≠ '/'.byte ∧ c ≠ '<'.byte ∧ c ≠ '>'.byte ∧ c ≠ singleQuote ∧ c ≠ doubleQuote := by decide
  simp only [procOperator, hother c hdigit, if_false, hdigit, if_true]
  rfl

theorem At.run_number {c : Byte} (h : token.At (c :: rest)) (hc : isDigit c) {start : Token}
    (hstart : start.trimSpace = token) :
    start.run = { token with string := [] }.procNumber.map fun token => (token, none) := by
  have hnl := isSeparator_ne_newline (isSeparator_of_isDigit hc)
  have hprev := prevChar_skip (show { token with string := [] }.eof = false from h.eof) 0
  rw [run_of_empty hstart (h.getString_empty (.inl hc) hnl) h.eof rfl,
    (h.withString []).nextChar hnl, procOperator_digit hc, hprev, skip_zero]

theorem At.run_token (h : token.At (t.text ++ rest)) (hvalid : t.Valid)
    (hends : t.Ends rest) (hrest : t = .punct .semicolon ∨ ∃ d ds, rest = d :: ds ∧ d ≠ newline)
    {start : Token} (hstart : start.trimSpace = token) :
    start.run.Holds fun r => r.2 = none ∧ r.1.Shows t ∧ r.1.At rest ∧
      r.1.replay = token.replay := by
  obtain ⟨c, cs, htext, -, hnl⟩ := hvalid.text_cons
  have hfirst : token.At (c :: (cs ++ rest)) := by
    rw [htext] at h
    exact h
  have hskip : (token.skip t.text.length).At rest := h.skip
  cases t with
  | identifier name =>
    obtain ⟨⟨c', cs', hcs, hdigit⟩, hchars, hkeyword⟩ := hvalid
    obtain ⟨d, ds, hds, hdnl⟩ := hrest.resolve_left (by simp)
    have hsep : isSeparator d := hends d (by simp [hds])
    rw [hds] at h
    have hget := At.getString_name (show token.At (name ++ d :: ds) from h) (by simp [hcs])
      (by simp [hcs, hdigit]) hchars hsep hdnl
    rcases hget with hname | herror
    · rw [run_of_name hstart hname hskip.eof (by simp [hcs]), Except.holds_ok]
      refine ⟨rfl, ⟨?_, ?_, ?_⟩, ⟨hskip.eof, hskip.text⟩, rfl⟩
      · show (tokenMatchName name).getD .identifier = .identifier
        rw [hkeyword]
        rfl
      · intro x hx
        cases hx
        rfl
      · nofun
    · rw [Token.run, hstart, herror]
      exact Except.holds_error
  | literal digits =>
    obtain ⟨d, ds, hds, hdnl⟩ := hrest.resolve_left (by simp)
    have hsep : isSeparator d := hends d (by simp [hds])
    have hdigit : isDigit c := hvalid.1 c (by rw [show digits = c :: cs from htext]; simp)
    rw [hds] at h
    rw [hfirst.run_number hdigit hstart, (h.withString []).procNumber hvalid hsep hdnl]
    refine Except.holds_ok.mpr ⟨rfl, ⟨rfl, ?_, ?_⟩, ⟨hskip.eof, hskip.text⟩, rfl⟩
    · nofun
    · intro digits' hdigits
      cases hdigits
      rfl
  | punct type =>
    have hsep : isSeparator c := by
      cases type
      all_goals first | exact absurd rfl hvalid | (cases htext; decide)
    have hempty := hfirst.getString_empty (.inr hsep) hnl
    have hop := (h.withString []).procOperator hvalid hends (by simpa using hrest)
    rw [run_of_empty hstart hempty h.eof rfl, hop]
    refine Except.holds_ok.mpr ⟨rfl, ⟨rfl, ?_, ?_⟩, ⟨hskip.eof, hskip.text⟩, rfl⟩ <;> nofun

/-- The scanner reads the first of the tokens that a text spells, and what is left spells the
others. -/
theorem At.run_cons (h : token.At text) (hspells : Spells (t :: ts) text)
    (hlast : t = .punct .semicolon ∨ ts ≠ []) :
    token.run.Holds fun r => r.2 = none ∧ r.1.Shows t ∧ r.1.replay = token.replay ∧
      ∃ rest, r.1.At rest ∧ Spells ts rest := by
  cases hspells with
  | @cons t ts blanks rest hblanks hvalid hends hrest =>
    obtain ⟨c, cs, htext, hspace, hnl⟩ := hvalid.text_cons
    have hnext : t = .punct .semicolon ∨ ∃ d ds, rest = d :: ds ∧ d ≠ newline := by
      rcases hlast with hsemi | hne
      · exact .inl hsemi
      · obtain ⟨t', ts', hts⟩ := exists_cons_of_ne_nil hne
        rw [hts] at hrest
        obtain ⟨d, ds, hds⟩ := exists_cons_of_ne_nil hrest.ne_nil
        exact .inr ⟨d, ds, hds, hrest.head_ne_newline d (by simp [hds])⟩
    have htrim : token.trimSpace = token.skip blanks.length := by
      rw [htext] at h
      exact h.trimSpace hblanks hspace hnl
    refine (h.skip.run_token hvalid hends hnext htrim).mono ?_
    rintro r ⟨herror, hshows, hat, hreplay⟩
    exact ⟨herror, hshows, hreplay, rest, hat, hrest⟩

theorem At.run_nil (h : token.At text) (hspells : Spells [] text) :
    token.run = .ok ({ token with eof := true, position := 0, currentToken := .eof }, none) := by
  cases hspells with
  | nil hblanks =>
    have htrim : token.trimSpace = { token with eof := true, position := 0 } := by
      have hfuel : text.length ≤ token.line.length + 1 := le_succ_of_le h.length_le
      have hscan := h.scan_blanks hblanks hfuel
      simp only [Token.trimSpace, Token.scanWhile, nextChar_line, hscan]
      rfl
    unfold Token.run
    rw [htrim]
    rfl

end Token
end RtThread.Finsh
