import EntityGraph.Proofs.Numerals

/-!
# The words of what has been written

The text of a value, in either layout, is read as the words that the value consists of:

    Token.ofText (Json.text l v) = v.tokens []                            (Token.ofText_text)

provided that the numbers are whole.  Words are recognized one by one.  `Reads cs ts` says that the
text `cs` is read as `ts`, and for every word that is written there is one lemma: put in front of a
text, it comes in front of the words of that text.  Only a number asks something of what stands
behind it (`Apart`).
-/

namespace EntityGraph

/-! ## Algorithm -/

namespace Json

mutual

/-- The words of a value, and then `rest`. -/
def tokens : Json → (rest : List Token) → List Token
  | .null, rest => .null :: rest
  | .bool b, rest => .bool b :: rest
  | .num n, rest => .num (some n) :: rest
  | .str s, rest => .str (some s) :: rest
  | .arr [], rest => .openArray :: .closeArray :: rest
  | .arr (x :: xs), rest => .openArray :: tokens x (tokensItems xs (.closeArray :: rest))
  | .obj [], rest => .openObject :: .closeObject :: rest
  | .obj ((k, v) :: ms), rest =>
    .openObject :: .str (some k) :: .colon :: tokens v (tokensMembers ms (.closeObject :: rest))

/-- The words of the items after the first. -/
def tokensItems : List Json → (rest : List Token) → List Token
  | [], rest => rest
  | x :: xs, rest => .comma :: tokens x (tokensItems xs rest)

/-- The words of the members after the first. -/
def tokensMembers : List (String × Json) → (rest : List Token) → List Token
  | [], rest => rest
  | (k, v) :: ms, rest =>
    .comma :: .str (some k) :: .colon :: tokens v (tokensMembers ms rest)

end

end Json

namespace Json

mutual

/-- Whether all numbers in a value are whole. -/
def whole : Json → Bool
  | .num n => n.whole
  | .arr items => wholeItems items
  | .obj members => wholeMembers members
  | _ => true

def wholeItems : List Json → Bool
  | [] => true
  | v :: rest => whole v && wholeItems rest

def wholeMembers : List (String × Json) → Bool
  | [] => true
  | (_, v) :: rest => whole v && wholeMembers rest

end

/-- Nothing but blanks is set between words, apart from the colon. -/
structure Layout.Blank (l : Layout) : Prop where
  breaks : ∀ d, ∀ c ∈ l.breaks d, Token.blank c = true
  colon : ∃ blanks, l.colon = ':' :: blanks ∧ ∀ c ∈ blanks, Token.blank c = true

end Json

namespace Token

/-- The text is read as the words. -/
def Reads (cs : List Char) (ts : List Token) : Prop := ∀ fuel, cs.length ≤ fuel → scan fuel cs = ts

end Token

/-! ## Lemmas -/

namespace Token

/-! ### Strings -/

/-- An escape of one letter is read as the character that it stands for. -/
theorem pieces_escaped {e c : Char} (hu : e ≠ 'u') (he : escaped e = some c) (rest : List Char) :
    pieces ('\\' :: e :: rest) = (pieces rest).map fun (ps, after) => (.char c :: ps, after) := by
  rw [pieces, he]
  · cases pieces rest <;> rfl
  · intro _ _ _ _ _ heq
    exact absurd heq hu

theorem pieces_plain {c : Char} (hquote : c ≠ '"') (hescape : c ≠ '\\') (hle : 0x20 ≤ c.toNat)
    (rest : List Char) :
    pieces (c :: rest) = (pieces rest).map fun (ps, after) => (.char c :: ps, after) := by
  have hplain : ¬ (c.toNat < 0x20 || c = '\\') = true := by
    simp only [hescape, decide_false, Bool.or_false, decide_eq_true_eq]
    omega
  rw [pieces, if_neg hplain]
  · cases pieces rest <;> rfl
  · exact hquote
  · intro _ _ _ _ _ heq
    exact absurd heq hescape
  · intro _ _ heq
    exact absurd heq hescape

theorem hexUnit_control : ∀ n < 32,
    hexUnit '0' '0' (hexDigit (n / 16)) (hexDigit (n % 16)) = some n := by decide

/-- A control character is written as its number. -/
theorem pieces_control {c : Char} (hlt : c.toNat < 0x20) (rest : List Char) :
    pieces ('\\' :: 'u' :: '0' :: '0' :: hexDigit (c.toNat / 16) :: hexDigit (c.toNat % 16) :: rest)
      = (pieces rest).map fun (ps, after) => (.char c :: ps, after) := by
  have hunit : Piece.ofUnit c.toNat = .char c := by
    have hlow : ¬ (0xD800 ≤ c.toNat && c.toNat < 0xE000) = true := by
      rw [Bool.and_eq_true, decide_eq_true_eq, decide_eq_true_eq]
      omega
    rw [Piece.ofUnit, if_neg hlow, Char.ofNat_toNat]
  rw [pieces, hexUnit_control _ hlt]
  cases pieces rest with
  | none => rfl
  | some p => simp only [hunit, Option.map_some]

theorem pieces_escapeChar (c : Char) (rest : List Char) : pieces (escapeChar c ++ rest) =
    (pieces rest).map fun (ps, after) => (.char c :: ps, after) := by
  unfold escapeChar
  split_ifs with hquote hescape hle hb ht hn hf hr
  · rw [hquote]
    exact pieces_escaped (by decide) rfl rest
  · rw [hescape]
    exact pieces_escaped (by decide) rfl rest
  · exact pieces_plain hquote hescape hle rest
  · rw [hb]
    exact pieces_escaped (by decide) rfl rest
  · rw [ht]
    exact pieces_escaped (by decide) rfl rest
  · rw [hn]
    exact pieces_escaped (by decide) rfl rest
  · rw [hf]
    exact pieces_escaped (by decide) rfl rest
  · rw [hr]
    exact pieces_escaped (by decide) rfl rest
  · exact pieces_control (Nat.lt_of_not_le hle) rest

theorem pieces_flatMap (cs rest : List Char) :
    pieces (cs.flatMap escapeChar ++ '"' :: rest) = some (cs.map .char, rest) := by
  induction cs with
  | nil => rfl
  | cons c cs ih =>
    rw [List.flatMap_cons, List.append_assoc, pieces_escapeChar, ih]
    rfl

theorem characters_map_char (cs : List Char) : characters (cs.map .char) = some cs := by
  induction cs with
  | nil => rfl
  | cons c cs ih =>
    rw [List.map_cons, characters, ih]
    rfl

theorem first_quoted (s : String) (rest : List Char) :
    first (quoted s ++ rest) = some (.str (some s), rest) := by
  have htext : quoted s ++ rest = '"' :: (s.toList.flatMap escapeChar ++ '"' :: rest) := by
    simp [quoted]
  rw [htext, first, pieces_flatMap]
  simp [characters_map_char]

/-! ### Texts -/

variable {cs blanks : List Char} {ts : List Token}

theorem Reads.nil : Reads [] [] := by
  intro fuel _
  cases fuel <;> rfl

/-- Blanks are passed over. -/
theorem Reads.skip (hblanks : ∀ c ∈ blanks, blank c = true) (h : Reads cs ts) :
    Reads (blanks ++ cs) ts := by
  intro fuel hfuel
  have hlength : cs.length ≤ fuel := by
    rw [List.length_append] at hfuel
    omega
  rw [← h fuel hlength]
  cases fuel with
  | zero => rfl
  | succ fuel => rw [scan, scan, List.dropWhile_append_of_pos hblanks]

/-- A word in front of a text. -/
theorem Reads.word {c : Char} {w : List Char} {t : Token} (hc : blank c = false)
    (hfirst : first (c :: w ++ cs) = some (t, cs)) (h : Reads cs ts) :
    Reads (c :: w ++ cs) (t :: ts) := by
  intro fuel hfuel
  cases fuel with
  | zero => cases hfuel
  | succ fuel =>
    have hlength : cs.length ≤ fuel := by
      rw [List.cons_append, List.length_cons, List.length_append] at hfuel
      omega
    rw [List.cons_append] at hfirst ⊢
    rw [scan, List.dropWhile_cons_of_neg (by simp [hc])]
    simp only [hfirst, h fuel hlength]

theorem Reads.quoted (s : String) (h : Reads cs ts) :
    Reads (quoted s ++ cs) (.str (some s) :: ts) :=
  .word (c := '"') rfl (first_quoted s cs) h

theorem Reads.number {n : Number} (hn : n.whole = true) (hcs : Apart cs) (h : Reads cs ts) :
    Reads (n.text ++ cs) (.num (some n) :: ts) := by
  have hfirst := first_number hn hcs
  cases n with
  | float x => cases hn
  | int n =>
    cases n with
    | ofNat n =>
      obtain ⟨c, word, hword⟩ : ∃ c word, natText n = c :: word :=
        List.exists_cons_of_ne_nil Nat.toDigits_ne_nil
      have hdigit : digit? c = true := digit?_of_mem_natText (hword ▸ List.mem_cons_self)
      have hblank : blank c = false := by
        cases hc : blank c with
        | false => rfl
        | true =>
          unfold blank at hc
          simp only [Bool.or_eq_true, decide_eq_true_eq] at hc
          rcases hc with ((rfl | rfl) | rfl) | rfl <;> cases hdigit
      have htext : (Number.int (.ofNat n)).text = c :: word := hword
      rw [htext] at hfirst ⊢
      exact .word hblank hfirst h
    | negSucc n => exact .word (c := '-') rfl hfirst h

theorem apart_cons {c : Char} (hdigit : digit? c = false) (hdot : c ≠ '.') (he : c ≠ 'e')
    (hE : c ≠ 'E') : Apart (c :: cs) := by
  rintro _ ⟨⟩
  exact ⟨hdigit, hdot, he, hE⟩

theorem apart_append (hblanks : ∀ c ∈ blanks, blank c = true) (hcs : Apart cs) :
    Apart (blanks ++ cs) := by
  cases blanks with
  | nil => exact hcs
  | cons c blanks =>
    have hc := hblanks c List.mem_cons_self
    unfold blank at hc
    simp only [Bool.or_eq_true, decide_eq_true_eq] at hc
    rcases hc with ((rfl | rfl) | rfl) | rfl <;>
      exact apart_cons rfl (by decide) (by decide) (by decide)

end Token

namespace Json

open Token

/-- Induction over values, with items and members as smaller values. -/
@[induction_eliminator]
theorem induct {motive : Json → Prop} (null : motive .null) (bool : ∀ b, motive (.bool b))
    (num : ∀ n, motive (.num n)) (str : ∀ s, motive (.str s))
    (arr : ∀ items, (∀ v ∈ items, motive v) → motive (.arr items))
    (obj : ∀ members, (∀ p ∈ members, motive p.2) → motive (.obj members)) (v : Json) : motive v :=
  @Json.rec motive (fun items => ∀ v ∈ items, motive v) (fun members => ∀ p ∈ members, motive p.2)
    (fun p => motive p.2) null bool num str arr obj (by simp)
    (fun _ _ hv hrest => List.forall_mem_cons.mpr ⟨hv, hrest⟩) (by simp)
    (fun _ _ hp hrest => List.forall_mem_cons.mpr ⟨hp, hrest⟩) (fun _ _ hv => hv) v

theorem wholeItems_iff {items : List Json} :
    wholeItems items = true ↔ ∀ v ∈ items, v.whole = true := by
  induction items with
  | nil => simp [wholeItems]
  | cons v rest ih => simp [wholeItems, ih]

theorem wholeMembers_iff {members : List (String × Json)} :
    wholeMembers members = true ↔ ∀ p ∈ members, p.2.whole = true := by
  induction members with
  | nil => simp [wholeMembers]
  | cons p rest ih => simp [wholeMembers, ih]

/-- Wherever it stands, the text of the value is read as the words of the value. -/
def ReadBack (l : Layout) (v : Json) : Prop := ∀ d rest ts, Apart rest → Reads rest ts →
  Reads (v.write l d rest) (v.tokens ts)

section

variable {l : Layout} {d : Nat} {rest : List Char} {ts : List Token}

theorem reads_colon (hl : l.Blank) (h : Reads rest ts) :
    Reads (l.colon ++ rest) (.colon :: ts) := by
  obtain ⟨blanks, hcolon, hblanks⟩ := hl.colon
  rw [hcolon]
  exact .word (c := ':') (w := []) rfl rfl (h.skip hblanks)

theorem apart_writeItems (hrest : Apart rest) (xs : List Json) :
    Apart (writeItems l d xs rest) := by
  cases xs with
  | nil => exact hrest
  | cons x xs => exact apart_cons rfl (by decide) (by decide) (by decide)

theorem reads_writeItems (hl : l.Blank) {xs : List Json} (hxs : ∀ x ∈ xs, x.ReadBack l)
    (hrest : Apart rest) (h : Reads rest ts) :
    Reads (writeItems l d xs rest) (tokensItems xs ts) := by
  induction xs with
  | nil => exact h
  | cons x xs ih =>
    have hitems := ih fun y hy => hxs y (List.mem_cons_of_mem _ hy)
    have hx := hxs x List.mem_cons_self d _ _ (apart_writeItems hrest xs) hitems
    rw [writeItems, tokensItems]
    exact .word (c := ',') (w := []) rfl rfl (hx.skip (hl.breaks d))

theorem apart_writeMembers (hrest : Apart rest) (ms : List (String × Json)) :
    Apart (writeMembers l d ms rest) := by
  cases ms with
  | nil => exact hrest
  | cons p ms => exact apart_cons rfl (by decide) (by decide) (by decide)

theorem reads_writeMembers (hl : l.Blank) {ms : List (String × Json)}
    (hms : ∀ p ∈ ms, p.2.ReadBack l) (hrest : Apart rest) (h : Reads rest ts) :
    Reads (writeMembers l d ms rest) (tokensMembers ms ts) := by
  induction ms with
  | nil => exact h
  | cons p ms ih =>
    obtain ⟨k, v⟩ := p
    have hmembers := ih fun q hq => hms q (List.mem_cons_of_mem _ hq)
    have hv := hms (k, v) List.mem_cons_self d _ _ (apart_writeMembers hrest ms) hmembers
    rw [writeMembers, tokensMembers]
    refine .word (c := ',') (w := []) rfl rfl (Reads.skip (hl.breaks d) ?_)
    exact (reads_colon hl hv).quoted k

/-- **Written values are read back** as their words. -/
theorem readBack (hl : l.Blank) {v : Json} (hv : v.whole = true) : v.ReadBack l := by
  induction v with
  | null => exact fun d rest ts _ h => .word (c := 'n') rfl rfl h
  | bool b =>
    intro d rest ts _ h
    cases b with
    | true => exact .word (c := 't') rfl rfl h
    | false => exact .word (c := 'f') rfl rfl h
  | num n => exact fun d rest ts hrest h => .number hv hrest h
  | str s => exact fun d rest ts _ h => .quoted s h
  | arr items ih =>
    intro d rest ts _ h
    have hitems := wholeItems_iff.mp hv
    cases items with
    | nil => exact .word (c := '[') (w := []) rfl rfl (.word (c := ']') (w := []) rfl rfl h)
    | cons x xs =>
      have hclose : Reads (l.breaks d ++ ']' :: rest) (.closeArray :: ts) :=
        Reads.skip (hl.breaks d) (.word (c := ']') (w := []) rfl rfl h)
      have hapart : Apart (l.breaks d ++ ']' :: rest) :=
        apart_append (hl.breaks d) (apart_cons rfl (by decide) (by decide) (by decide))
      have hxs : Reads (writeItems l (d + 1) xs (l.breaks d ++ ']' :: rest))
          (tokensItems xs (.closeArray :: ts)) := by
        refine reads_writeItems hl (fun y hy => ?_) hapart hclose
        exact ih y (List.mem_cons_of_mem _ hy) (hitems y (List.mem_cons_of_mem _ hy))
      have hx := ih x List.mem_cons_self (hitems x List.mem_cons_self) (d + 1) _ _
        (apart_writeItems hapart xs) hxs
      rw [write, tokens]
      exact .word (c := '[') (w := []) rfl rfl (hx.skip (hl.breaks (d + 1)))
  | obj members ih =>
    intro d rest ts _ h
    have hmembers := wholeMembers_iff.mp hv
    cases members with
    | nil => exact .word (c := '{') (w := []) rfl rfl (.word (c := '}') (w := []) rfl rfl h)
    | cons p ms =>
      obtain ⟨k, v⟩ := p
      have hclose : Reads (l.breaks d ++ '}' :: rest) (.closeObject :: ts) :=
        Reads.skip (hl.breaks d) (.word (c := '}') (w := []) rfl rfl h)
      have hapart : Apart (l.breaks d ++ '}' :: rest) :=
        apart_append (hl.breaks d) (apart_cons rfl (by decide) (by decide) (by decide))
      have hms : Reads (writeMembers l (d + 1) ms (l.breaks d ++ '}' :: rest))
          (tokensMembers ms (.closeObject :: ts)) := by
        refine reads_writeMembers hl (fun q hq => ?_) hapart hclose
        exact ih q (List.mem_cons_of_mem _ hq) (hmembers q (List.mem_cons_of_mem _ hq))
      have hv := ih (k, v) List.mem_cons_self (hmembers (k, v) List.mem_cons_self) (d + 1) _ _
        (apart_writeMembers hapart ms) hms
      rw [write, tokens]
      refine .word (c := '{') (w := []) rfl rfl (Reads.skip (hl.breaks (d + 1)) ?_)
      exact (reads_colon hl hv).quoted k

end

theorem Layout.blank_compact : Layout.compact.Blank := ⟨nofun, [], rfl, nofun⟩

theorem Layout.blank_pretty : Layout.pretty.Blank := by
  refine ⟨fun d c hc => ?_, [' '], rfl, by simp [blank]⟩
  rcases List.mem_cons.mp hc with rfl | hc
  · rfl
  · rw [List.eq_of_mem_replicate hc]
    rfl

end Json

theorem Token.ofText_text {l : Json.Layout} (hl : l.Blank) {v : Json} (hv : v.whole = true) :
    Token.ofText (v.text l) = v.tokens [] := by
  have hreads := Json.readBack hl hv 0 [] [] (by simp [Token.Apart]) .nil
  rw [Token.ofText, Json.text, String.toList_ofList]
  exact hreads _ (Nat.le_refl _)

end EntityGraph
