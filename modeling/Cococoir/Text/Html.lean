import Mathlib.Data.List.Basic

/-!
# Reading HTML

The tokens of an HTML text.  What follows a start tag is read as ordinary content: elements whose
content is raw, such as scripts, are not singled out.

* `step`, `tokens`: the tokenizer, with character references left as they are.
* `CharRefs`, `readFrom`: the character references, which are a parameter.
* `parse`: the tokens of a text.
* `parse_value_iff`, `parse_chars_iff`: when a text in the place of an attribute's value, or between two
  tags, is read back as it is.

## A machine that reads one character at a time

The tokenizer is a state machine: a state, a character, the next state and the tokens that it
completes.  What a page does to an input is then a matter of states.  The page's own text before
the input leads from the first state to the one in which the input is met, whatever the input is;
the text after it leads on from wherever the input left off.  So the two laws at the end are about
one state each: inside the double quotes of an attribute's value, and between two tags.  In the
first only a quote ends the value, in the second only a `<` that opens markup ends the characters.

Character references are resolved afterwards, token by token.  Which names there are is a table of
the standard's, and a parameter; what is used of it is that a reference makes a text shorter, so
that a text in which something was resolved is not the text that was put in.  Two normalizations
come first, of newlines and of null characters, and a text that has one of these does not come
back either.
-/

namespace Cococoir
namespace Html

/-! ## Tokens -/

inductive Token : Type where
  | startTag (name : List Char) (attrs : List (List Char × List Char)) (selfClosing : Bool) : Token
  | endTag (name : List Char) : Token
  | char (c : Char) : Token
  /-- A comment, or a document type. -/
  | markup (text : List Char) : Token
  /-- A null character or an end tag without a name, which is dropped. -/
  | dropped : Token
  deriving DecidableEq

/-- A tag that is being read. -/
structure Tag : Type where
  closing : Bool
  name : List Char
  attrs : List (List Char × List Char)
  deriving DecidableEq

/-- An attribute that is there already is not added again. -/
def Tag.add (t : Tag) (name value : List Char) : Tag :=
  if name ∈ t.attrs.map Prod.fst then t else { t with attrs := t.attrs ++ [(name, value)] }

def Tag.token (t : Tag) (selfClosing : Bool) : Token :=
  if t.closing then .endTag t.name else .startTag t.name t.attrs selfClosing

inductive State : Type where
  | data : State
  /-- After `<`. -/
  | tagOpen : State
  /-- After `</`. -/
  | endTagOpen : State
  /-- After `<!`. -/
  | declaration (text : List Char) : State
  /-- In a comment; the text begins with its two hyphens. -/
  | comment (text : List Char) : State
  /-- In what is taken for a comment. -/
  | bogus (text : List Char) : State
  | tagName (closing : Bool) (name : List Char) : State
  | beforeName (t : Tag) : State
  | name (t : Tag) (name : List Char) : State
  | afterName (t : Tag) (name : List Char) : State
  | beforeValue (t : Tag) (name : List Char) : State
  | value (t : Tag) (name : List Char) (quote : Option Char) (raw : List Char) : State
  | afterValue (t : Tag) : State
  | selfClosing (t : Tag) : State
  deriving DecidableEq

def isSpace (c : Char) : Bool := c = ' ' || c = '\n' || c = '\t' || c = Char.ofNat 12

def isLetter (c : Char) : Bool := ('a' ≤ c && c ≤ 'z') || ('A' ≤ c && c ≤ 'Z')

def null : Char := Char.ofNat 0

/-- A null character in a tag is replaced. -/
def denull (c : Char) : Char := if c = null then Char.ofNat 0xfffd else c

def inData (c : Char) : State × List Token :=
  if c = '<' then (.tagOpen, [])
  else if c = null then (.data, [.dropped])
  else (.data, [.char c])

def inBogus (text : List Char) (c : Char) : State × List Token :=
  if c = '>' then (.data, [.markup text]) else (.bogus (text ++ [c]), [])

def inTag (t : Tag) (c : Char) : State × List Token :=
  if isSpace c then (.beforeName t, [])
  else if c = '/' then (.selfClosing t, [])
  else if c = '>' then (.data, [t.token false])
  else (.name t [(denull c).toLower], [])

/-- A comment ends after two hyphens, or two hyphens and an exclamation mark. -/
def commentEnds (text : List Char) (c : Char) : Bool :=
  c = '>' && (['-', '-'] <:+ text || (5 ≤ text.length && ['-', '-', '!'] <:+ text))

/-- What one character does. -/
def step : State → Char → State × List Token
  | .data, c => inData c
  | .tagOpen, c =>
    if c = '!' then (.declaration [], [])
    else if c = '/' then (.endTagOpen, [])
    else if c = '?' then (.bogus ['?'], [])
    else if isLetter c then (.tagName false [c.toLower], [])
    else ((inData c).1, .char '<' :: (inData c).2)
  | .endTagOpen, c =>
    if isLetter c then (.tagName true [c.toLower], [])
    else if c = '>' then (.data, [.dropped])
    else inBogus [] c
  | .declaration text, c =>
    if c = '-' then (if text = [] then .declaration ['-'] else .comment ['-', '-'], []) else inBogus text c
  | .comment text, c =>
    if commentEnds text c then (.data, [.markup text]) else (.comment (text ++ [c]), [])
  | .bogus text, c => inBogus text c
  | .tagName closing name, c =>
    if isSpace c then (.beforeName ⟨closing, name, []⟩, [])
    else if c = '/' then (.selfClosing ⟨closing, name, []⟩, [])
    else if c = '>' then (.data, [Tag.token ⟨closing, name, []⟩ false])
    else (.tagName closing (name ++ [(denull c).toLower]), [])
  | .beforeName t, c => inTag t c
  | .name t name, c =>
    if isSpace c then (.afterName t name, [])
    else if c = '=' then (.beforeValue t name, [])
    else if c = '/' then (.selfClosing (t.add name []), [])
    else if c = '>' then (.data, [(t.add name []).token false])
    else (.name t (name ++ [(denull c).toLower]), [])
  | .afterName t name, c =>
    if isSpace c then (.afterName t name, [])
    else if c = '=' then (.beforeValue t name, [])
    else inTag (t.add name []) c
  | .beforeValue t name, c =>
    if isSpace c then (.beforeValue t name, [])
    else if c = '"' ∨ c = '\'' then (.value t name (some c) [], [])
    else if c = '>' then (.data, [(t.add name []).token false])
    else (.value t name none [denull c], [])
  | .value t name (some quote) raw, c =>
    if c = quote then (.afterValue (t.add name raw), []) else (.value t name (some quote) (raw ++ [denull c]), [])
  | .value t name none raw, c =>
    if isSpace c then (.beforeName (t.add name raw), [])
    else if c = '>' then (.data, [(t.add name raw).token false])
    else (.value t name none (raw ++ [denull c]), [])
  | .afterValue t, c => inTag t c
  | .selfClosing t, c => if c = '>' then (.data, [t.token true]) else inTag t c

/-- What is left at the end of the text. -/
def atEnd : State → List Token
  | .tagOpen => [.char '<']
  | .endTagOpen => [.char '<', .char '/']
  | .declaration text | .comment text | .bogus text => [.markup text]
  | _ => []

def tokens : State → List Char → List Token
  | σ, [] => atEnd σ
  | σ, c :: s => (step σ c).2 ++ tokens (step σ c).1 s

/-- The state after a text, and the tokens in it. -/
def feed : State → List Char → State × List Token
  | σ, [] => (σ, [])
  | σ, c :: s => ((feed (step σ c).1 s).1, (step σ c).2 ++ (feed (step σ c).1 s).2)

/-- A carriage return, or one with a line feed, is a line feed. -/
def normalizeNewlines (afterReturn : Bool) : List Char → List Char
  | [] => []
  | c :: s =>
    if c = '\r' then '\n' :: normalizeNewlines true s
    else if c = '\n' ∧ afterReturn = true then normalizeNewlines false s
    else c :: normalizeNewlines false s

/-! ## Character references -/

/-- What a character reference stands for, and its length, from the text after its ampersand; in the
value of an attribute fewer are recognized. -/
structure CharRefs : Type where
  resolve : (inAttr : Bool) → (text : List Char) → Option (List Char × ℕ)
  /-- A reference is longer than what it stands for. -/
  shrinks : ∀ inAttr text out n, resolve inAttr text = some (out, n) → out.length ≤ n ∧ n ≤ text.length

/-- The references of a table of names, the same in attributes. -/
def CharRefs.ofNames (names : List (List Char × Char)) (h : ∀ p ∈ names, p.1 ≠ []) : CharRefs where
  resolve _ text := (names.find? fun p => p.1.isPrefixOf text).map fun p => ([p.2], p.1.length)
  shrinks := by
    intro inAttr text out n hresolve
    obtain ⟨p, hp, heq⟩ := Option.map_eq_some_iff.mp hresolve
    obtain ⟨rfl, rfl⟩ := Prod.mk.inj heq
    obtain ⟨hbegins, -⟩ := List.find?_eq_some_iff_append.mp hp
    refine ⟨?_, (List.isPrefixOf_iff_prefix.mp hbegins).length_le⟩
    exact List.length_pos_of_ne_nil (h p (List.mem_of_find?_eq_some hp))

variable (refs : CharRefs)

/-- A text with its references resolved, after the first characters have been skipped. -/
def decodeFrom (inAttr : Bool) : ℕ → List Char → List Char
  | _, [] => []
  | k + 1, _ :: s => decodeFrom inAttr k s
  | 0, c :: s =>
    match if c = '&' then refs.resolve inAttr s else none with
    | some (out, n) => out ++ decodeFrom inAttr n s
    | none => c :: decodeFrom inAttr 0 s

/-- The characters before the first other token. -/
def leading : List Token → List Char
  | .char c :: ts => c :: leading ts
  | _ => []

/-- The tokens with their references resolved. -/
def readFrom : ℕ → List Token → List Token
  | _, [] => []
  | k + 1, _ :: ts => readFrom k ts
  | 0, .char c :: ts =>
    match if c = '&' then refs.resolve false (leading ts) else none with
    | some (out, n) => out.map .char ++ readFrom n ts
    | none => .char c :: readFrom 0 ts
  | 0, .startTag name attrs selfClosing :: ts =>
    .startTag name (attrs.map fun p => (p.1, decodeFrom refs true 0 p.2)) selfClosing :: readFrom 0 ts
  | 0, t :: ts => t :: readFrom 0 ts

/-- The tokens of a text. -/
def parse (html : List Char) : List Token := readFrom refs 0 (tokens .data (normalizeNewlines false html))

/-! ## Newlines -/

variable {refs} {s a b raw name : List Char} {c : Char} {t t' : Tag} {σ σ' : State} {ts : List Token}
  {inAttr : Bool}

theorem return_not_mem_normalizeNewlines (after : Bool) (s : List Char) :
    '\r' ∉ normalizeNewlines after s := by
  induction s generalizing after with
  | nil => exact List.not_mem_nil
  | cons c s ih =>
    unfold normalizeNewlines
    split_ifs with hr
    · exact List.not_mem_cons_of_ne_of_not_mem (by decide) (ih true)
    · exact ih false
    · exact List.not_mem_cons_of_ne_of_not_mem (Ne.symm hr) (ih false)

theorem normalizeNewlines_append (h : '\r' ∉ a) :
    normalizeNewlines false (a ++ s) = a ++ normalizeNewlines false s := by
  induction a with
  | nil => rfl
  | cons c a ih =>
    rw [List.mem_cons, not_or] at h
    rw [List.cons_append, normalizeNewlines, if_neg (Ne.symm h.1), if_neg (by simp), ih h.2]
    rfl

theorem normalizeNewlines_of_not_mem (h : '\r' ∉ s) : normalizeNewlines false s = s := by
  have happend := normalizeNewlines_append (s := []) h
  rwa [List.append_nil, normalizeNewlines, List.append_nil] at happend

/-- A text that a line feed does not begin is read by itself. -/
theorem normalizeNewlines_append_cons (after : Bool) (hc : c ≠ '\n' ∧ c ≠ '\r') (h : '\r' ∉ b) :
    normalizeNewlines after (s ++ c :: b) = normalizeNewlines after s ++ c :: b := by
  induction s generalizing after with
  | nil =>
    show normalizeNewlines after (c :: b) = c :: b
    rw [normalizeNewlines, if_neg hc.2, if_neg fun hn => hc.1 hn.1, normalizeNewlines_of_not_mem h]
  | cons d s ih =>
    rw [List.cons_append, normalizeNewlines, normalizeNewlines]
    split_ifs
    · rw [ih, List.cons_append]
    · rw [ih]
    · rw [ih, List.cons_append]

theorem length_normalizeNewlines_le (after : Bool) (s : List Char) :
    (normalizeNewlines after s).length ≤ s.length := by
  induction s generalizing after with
  | nil => exact Nat.le_refl 0
  | cons c s ih =>
    unfold normalizeNewlines
    split_ifs
    · exact Nat.succ_le_succ (ih true)
    · exact Nat.le_succ_of_le (ih false)
    · exact Nat.succ_le_succ (ih false)

/-! ## References -/

/-- No ampersand of the text begins a character reference. -/
def NoRefs (refs : CharRefs) (inAttr : Bool) (s : List Char) : Prop :=
  ∀ b, '&' :: b <:+ s → refs.resolve inAttr b = none

theorem noRefs_cons : NoRefs refs inAttr (c :: s) ↔
    (if c = '&' then refs.resolve inAttr s else none) = none ∧ NoRefs refs inAttr s := by
  constructor
  · intro h
    refine ⟨?_, fun b hb => h b (List.suffix_cons_iff.mpr (.inr hb))⟩
    split_ifs with hc
    · exact h s (hc ▸ List.suffix_refl _)
    · rfl
  · rintro ⟨hc, h⟩ b hb
    rcases List.suffix_cons_iff.mp hb with heq | hb
    · cases heq
      rwa [if_pos rfl] at hc
    · exact h b hb

theorem resolve_bounds {out : List Char} {n : ℕ}
    (h : (if c = '&' then refs.resolve inAttr s else none) = some (out, n)) :
    out.length ≤ n ∧ n ≤ s.length := by
  split_ifs at h
  exact refs.shrinks _ _ _ _ h

theorem length_decodeFrom_le (refs : CharRefs) (inAttr : Bool) {k : ℕ} (hk : k ≤ s.length) :
    (decodeFrom refs inAttr k s).length + k ≤ s.length := by
  induction s generalizing k with
  | nil =>
    obtain rfl := Nat.le_zero.mp hk
    exact hk
  | cons c s ih =>
    cases k with
    | succ k =>
      have hle := ih (Nat.le_of_succ_le_succ hk)
      rw [decodeFrom, List.length_cons]
      omega
    | zero =>
      rw [decodeFrom, List.length_cons]
      split
      · case h_1 out n hresolve =>
        obtain ⟨hout, hn⟩ := resolve_bounds hresolve
        have hle := ih hn
        rw [List.length_append]
        omega
      · have hle := ih (Nat.zero_le _)
        rw [List.length_cons]
        omega

/-- A reference makes a text shorter. -/
theorem noRefs_of_length (h : s.length ≤ (decodeFrom refs inAttr 0 s).length) : NoRefs refs inAttr s := by
  induction s with
  | nil => exact fun b hb => absurd (List.suffix_nil.mp hb) (List.cons_ne_nil _ _)
  | cons c s ih =>
    rw [decodeFrom] at h
    split at h
    · case h_1 out n hresolve =>
      obtain ⟨hout, hn⟩ := resolve_bounds hresolve
      have hle := length_decodeFrom_le refs inAttr hn
      rw [List.length_append, List.length_cons] at h
      omega
    · case h_2 hresolve => exact noRefs_cons.mpr ⟨hresolve, ih (Nat.le_of_succ_le_succ h)⟩

/-- **A text without references means itself.** -/
theorem decodeFrom_of_noRefs (h : NoRefs refs inAttr s) : decodeFrom refs inAttr 0 s = s := by
  induction s with
  | nil => rfl
  | cons c s ih =>
    obtain ⟨hc, h⟩ := noRefs_cons.mp h
    rw [decodeFrom, hc]
    exact congrArg (c :: ·) (ih h)

/-! ## Tokens and their references -/

theorem tokens_append (σ : State) (a s : List Char) :
    tokens σ (a ++ s) = (feed σ a).2 ++ tokens (feed σ a).1 s := by
  induction a generalizing σ with
  | nil => rfl
  | cons c a ih => rw [List.cons_append, tokens, ih, feed, List.append_assoc]

theorem leading_chars (u : List Char) (ts : List Token) :
    leading (u.map .char ++ ts) = u ++ leading ts := by
  induction u with
  | nil => rfl
  | cons c u ih => exact congrArg (c :: ·) ih

/-- The characters that are read first. -/
theorem leading_readFrom {k : ℕ} (hk : k ≤ (leading ts).length) :
    leading (readFrom refs k ts) = decodeFrom refs false k (leading ts) := by
  induction ts generalizing k with
  | nil => cases k <;> rfl
  | cons t ts ih =>
    cases t with
    | char c =>
      cases k with
      | succ k => exact ih (Nat.le_of_succ_le_succ hk)
      | zero =>
        rw [readFrom, leading, decodeFrom]
        split
        · case h_1 out n hresolve =>
          rw [leading_chars, ih (resolve_bounds hresolve).2]
        · rw [leading, ih (Nat.zero_le _)]
    | _ =>
      obtain rfl := Nat.le_zero.mp hk
      rfl

/-- Characters that other tokens follow are read by themselves. -/
theorem readFrom_chars {k : ℕ} {u : List Char} (hk : k ≤ u.length) (hts : leading ts = []) :
    readFrom refs k (u.map .char ++ ts) = (decodeFrom refs false k u).map .char ++ readFrom refs 0 ts := by
  induction u generalizing k with
  | nil =>
    obtain rfl := Nat.le_zero.mp hk
    rfl
  | cons c u ih =>
    cases k with
    | succ k => exact ih (Nat.le_of_succ_le_succ hk)
    | zero =>
      rw [List.map_cons, List.cons_append, readFrom, leading_chars, hts, List.append_nil, decodeFrom]
      split
      · case h_1 out n hresolve =>
        rw [ih (resolve_bounds hresolve).2, List.map_append, List.append_assoc]
      · rw [ih (Nat.zero_le _), List.map_cons, List.cons_append]

/-- There is no ampersand in a token. -/
def Token.settled : Token → Bool
  | .char c => c ≠ '&'
  | .startTag _ attrs _ => attrs.all fun p => '&' ∉ p.2
  | _ => true

theorem noRefs_of_not_mem (h : '&' ∉ s) : NoRefs refs inAttr s :=
  fun _ hb => absurd (hb.subset List.mem_cons_self) h

theorem decodeFrom_of_not_mem (h : '&' ∉ s) : decodeFrom refs inAttr 0 s = s :=
  decodeFrom_of_noRefs (noRefs_of_not_mem h)

theorem map_decode_of_not_mem {attrs : List (List Char × List Char)} (h : ∀ p ∈ attrs, '&' ∉ p.2) :
    attrs.map (fun p => (p.1, decodeFrom refs true 0 p.2)) = attrs := by
  conv_rhs => rw [← List.map_id attrs]
  exact List.map_congr_left fun p hp => Prod.ext rfl (decodeFrom_of_not_mem (h p hp))

theorem readFrom_settled {pre : List Token} (h : ∀ t ∈ pre, t.settled = true) :
    readFrom refs 0 (pre ++ ts) = pre ++ readFrom refs 0 ts := by
  induction pre with
  | nil => rfl
  | cons t pre ih =>
    rw [List.forall_mem_cons] at h
    have hrest := ih h.2
    cases t with
    | char c =>
      have hc : c ≠ '&' := by simpa [Token.settled] using h.1
      rw [List.cons_append, readFrom, if_neg hc]
      exact congrArg (Token.char c :: ·) hrest
    | startTag name attrs selfClosing =>
      have hattrs : ∀ p ∈ attrs, '&' ∉ p.2 := by simpa [Token.settled] using h.1
      rw [List.cons_append, readFrom, map_decode_of_not_mem hattrs, hrest]
      rfl
    | endTag name => exact congrArg (Token.endTag name :: ·) hrest
    | markup text => exact congrArg (Token.markup text :: ·) hrest
    | dropped => exact congrArg (Token.dropped :: ·) hrest

theorem feed_append (σ : State) (a b : List Char) :
    feed σ (a ++ b) = ((feed (feed σ a).1 b).1, (feed σ a).2 ++ (feed (feed σ a).1 b).2) := by
  induction a generalizing σ with
  | nil => rfl
  | cons c a ih => rw [List.cons_append, feed, ih, feed, List.append_assoc]

/-- A text of the page's own, from one state to another: it is read as it is. -/
def Leads (σ : State) (a : List Char) (σ' : State) : Prop :=
  (feed σ a).1 = σ' ∧ (∀ t ∈ (feed σ a).2, t.settled = true) ∧ '\r' ∉ a

instance : Decidable (Leads σ a σ') := inferInstanceAs (Decidable (_ ∧ _))

theorem Leads.append {σ'' : State} (ha : Leads σ a σ') (hb : Leads σ' b σ'') : Leads σ (a ++ b) σ'' := by
  obtain ⟨hstate, htokens, hreturn⟩ := ha
  unfold Leads
  rw [feed_append, hstate, List.mem_append, not_or]
  refine ⟨hb.1, fun t ht => ?_, hreturn, hb.2.2⟩
  rcases List.mem_append.mp ht with ht | ht
  · exact htokens t ht
  · exact hb.2.1 t ht

/-- The text of a literal. -/
theorem leads_toList {l : List Char} (h : Leads σ l σ') : Leads σ (String.ofList l).toList σ' := by
  rwa [String.toList_ofList]

theorem parse_append (h : Leads .data a σ) (hc : c ≠ '\n' ∧ c ≠ '\r') (hb : '\r' ∉ b) :
    parse refs (a ++ (s ++ c :: b)) =
      (feed .data a).2 ++ readFrom refs 0 (tokens σ (normalizeNewlines false s ++ c :: b)) := by
  obtain ⟨hstate, htokens, hreturn⟩ := h
  rw [parse, normalizeNewlines_append hreturn, normalizeNewlines_append_cons false hc hb, tokens_append,
    hstate, readFrom_settled htokens]

/-! ## In a tag -/

/-- The tag that is being read, once its name is. -/
def State.tag : State → Option Tag
  | .beforeName t | .name t _ | .afterName t _ | .beforeValue t _ | .value t _ _ _ | .afterValue t
  | .selfClosing t => some t
  | _ => none

/-- The same tag, perhaps with more attributes. -/
def Tag.Extends (t t' : Tag) : Prop :=
  t'.closing = t.closing ∧ t'.name = t.name ∧ t.attrs <+: t'.attrs

theorem Tag.Extends.refl (t : Tag) : t.Extends t := ⟨rfl, rfl, List.prefix_refl _⟩

theorem Tag.Extends.trans {t'' : Tag} (h : t.Extends t') (h' : t'.Extends t'') : t.Extends t'' :=
  ⟨h'.1.trans h.1, h'.2.1.trans h.2.1, h.2.2.trans h'.2.2⟩

theorem Tag.extends_add (t : Tag) (name value : List Char) : t.Extends (t.add name value) := by
  unfold Tag.add
  split_ifs
  · exact .refl t
  · exact ⟨rfl, rfl, List.prefix_append ..⟩

/-- What a character does in a tag: the tag goes on, or it is complete. -/
def GoesOn (t : Tag) (r : State × List Token) : Prop :=
  (∃ t', t.Extends t' ∧ r.1.tag = some t' ∧ r.2 = []) ∨
    ∃ t' selfClosing, t.Extends t' ∧ r.2 = [t'.token selfClosing]

theorem goesOn_inTag (h : t.Extends t') (c : Char) : GoesOn t (inTag t' c) := by
  unfold inTag
  split_ifs
  · exact .inl ⟨t', h, rfl, rfl⟩
  · exact .inl ⟨t', h, rfl, rfl⟩
  · exact .inr ⟨t', false, h, rfl⟩
  · exact .inl ⟨t', h, rfl, rfl⟩

theorem goesOn_step (ht : σ.tag = some t) (c : Char) : GoesOn t (step σ c) := by
  have hstay {σ' : State} {t' : Tag} (h : t.Extends t') (hσ : σ'.tag = some t') : GoesOn t (σ', []) :=
    .inl ⟨t', h, hσ, rfl⟩
  have hends {t' : Tag} (h : t.Extends t') (sc : Bool) : GoesOn t (.data, [t'.token sc]) :=
    .inr ⟨t', sc, h, rfl⟩
  cases σ with
  | beforeName t =>
    cases ht
    exact goesOn_inTag (.refl t) c
  | afterValue t =>
    cases ht
    exact goesOn_inTag (.refl t) c
  | name t name =>
    cases ht
    have hadd := t.extends_add name []
    rw [step]
    split_ifs
    · exact hstay (.refl t) rfl
    · exact hstay (.refl t) rfl
    · exact hstay hadd rfl
    · exact hends hadd false
    · exact hstay (.refl t) rfl
  | afterName t name =>
    cases ht
    rw [step]
    split_ifs
    · exact hstay (.refl t) rfl
    · exact hstay (.refl t) rfl
    · exact goesOn_inTag (t.extends_add name []) c
  | beforeValue t name =>
    cases ht
    rw [step]
    split_ifs
    · exact hstay (.refl t) rfl
    · exact hstay (.refl t) rfl
    · exact hends (t.extends_add name []) false
    · exact hstay (.refl t) rfl
  | value t name quote raw =>
    cases ht
    have hadd := t.extends_add name raw
    cases quote with
    | some q =>
      rw [step]
      split_ifs
      · exact hstay hadd rfl
      · exact hstay (.refl t) rfl
    | none =>
      rw [step]
      split_ifs
      · exact hstay hadd rfl
      · exact hends hadd false
      · exact hstay (.refl t) rfl
  | selfClosing t =>
    cases ht
    rw [step]
    split_ifs
    · exact hends (.refl t) true
    · exact goesOn_inTag (.refl t) c
  | _ => cases ht

/-- **A tag keeps the attributes it has**, if it ends at all. -/
theorem tokens_tag (ht : σ.tag = some t) (s : List Char) : tokens σ s = [] ∨
    ∃ t' selfClosing ts, t.Extends t' ∧ tokens σ s = t'.token selfClosing :: ts := by
  induction s generalizing σ t with
  | nil =>
    cases σ <;> first | exact .inl rfl | cases ht
  | cons c s ih =>
    rw [tokens]
    rcases goesOn_step ht c with ⟨t', hext, hσ, hnone⟩ | ⟨t', sc, hext, hone⟩
    · rw [hnone, List.nil_append]
      rcases ih hσ with h | ⟨t'', sc, ts, hext', h⟩
      · exact .inl h
      · exact .inr ⟨t'', sc, ts, hext.trans hext', h⟩
    · rw [hone]
      exact .inr ⟨t', sc, _, hext, rfl⟩

/-- A quoted value up to its quote. -/
theorem tokens_value {quote : Char} (h : quote ∉ a) :
    tokens (.value t name (some quote) raw) (a ++ quote :: s) =
      tokens (.afterValue (t.add name (raw ++ a.map denull))) s := by
  induction a generalizing raw with
  | nil =>
    rw [List.nil_append, tokens, step, if_pos rfl, List.nil_append, List.map_nil, List.append_nil]
  | cons c a ih =>
    rw [List.mem_cons, not_or] at h
    rw [List.cons_append, tokens, step, if_neg (Ne.symm h.1), List.nil_append, ih h.2, List.map_cons,
      List.append_assoc]
    rfl

/-- A text that is the value of an attribute between double quotes is read back as it is. -/
structure PlainValue (refs : CharRefs) (s : List Char) : Prop where
  noQuote : '"' ∉ s
  noNull : null ∉ s
  noReturn : '\r' ∉ s
  noRefs : NoRefs refs true s

theorem map_denull (h : null ∉ s) : s.map denull = s := by
  conv_rhs => rw [← List.map_id s]
  refine List.map_congr_left fun c hc => if_neg fun heq : c = null => ?_
  exact h (heq ▸ hc)

theorem null_not_mem_map (s : List Char) : null ∉ s.map denull := by
  intro h
  obtain ⟨c, -, hc⟩ := List.mem_map.mp h
  unfold denull at hc
  split_ifs at hc with heq
  · exact absurd hc (by decide)
  · exact heq hc

theorem return_not_mem_map (h : '\r' ∉ s) : '\r' ∉ s.map denull := by
  intro hmem
  obtain ⟨c, hc, heq⟩ := List.mem_map.mp hmem
  unfold denull at heq
  split_ifs at heq
  · exact absurd heq (by decide)
  · exact h (heq ▸ hc)

/-- What a value means that no quote ends. -/
theorem decode_value_iff (h : '"' ∉ normalizeNewlines false s) :
    decodeFrom refs true 0 ((normalizeNewlines false s).map denull) = s ↔ PlainValue refs s := by
  constructor
  · intro heq
    have hle := length_normalizeNewlines_le false s
    have hnoRefs : NoRefs refs true ((normalizeNewlines false s).map denull) := by
      refine noRefs_of_length ?_
      rw [heq, List.length_map]
      exact hle
    rw [decodeFrom_of_noRefs hnoRefs] at heq
    have hreturn : '\r' ∉ s := by
      rw [← heq]
      exact return_not_mem_map (return_not_mem_normalizeNewlines false s)
    have hnull : null ∉ s := by
      rw [← heq]
      exact null_not_mem_map _
    rw [normalizeNewlines_of_not_mem hreturn] at h hnoRefs
    exact ⟨h, hnull, hreturn, map_denull hnull ▸ hnoRefs⟩
  · intro hplain
    rw [normalizeNewlines_of_not_mem hplain.noReturn, map_denull hplain.noNull,
      decodeFrom_of_noRefs hplain.noRefs]

/-- **A text in the place of an attribute's value** is read back there, and the tokens around it are those
of the page, exactly when it is plain. -/
theorem parse_value_iff {pre close rest tagName : List Char} {attrs attrs' : List (List Char × List Char)}
    {selfClosing : Bool} (hpre : Leads .data pre (.value t name (some '"') [])) (hreturn : '\r' ∉ close ++ rest)
    (hadd : ∀ raw, t.add name raw = ⟨false, tagName, attrs ++ [(name, raw)]⟩)
    (hclose : ∀ raw, feed (.afterValue (t.add name raw)) close =
      (.data, [.startTag tagName (attrs ++ (name, raw) :: attrs') selfClosing]))
    (hattrs : ∀ p ∈ attrs, '&' ∉ p.2) (hattrs' : ∀ p ∈ attrs', '&' ∉ p.2) :
    parse refs (pre ++ (s ++ '"' :: (close ++ rest))) =
        (feed .data pre).2 ++ .startTag tagName (attrs ++ (name, s) :: attrs') selfClosing ::
          readFrom refs 0 (tokens .data rest) ↔ PlainValue refs s := by
  rw [parse_append hpre (by decide) hreturn, List.append_cancel_left_eq]
  by_cases hquote : '"' ∈ normalizeNewlines false s
  · refine iff_of_false (fun h => ?_) fun hplain => ?_
    · -- the value ends at the first quote, and the tag keeps it
      obtain ⟨x, y, hu, hx⟩ := List.eq_append_cons_of_mem hquote
      have hle := length_normalizeNewlines_le false s
      rw [hu, List.length_append, List.length_cons] at hle
      rw [hu, List.append_assoc, List.cons_append, tokens_value hx, List.nil_append, hadd] at h
      rcases tokens_tag (σ := .afterValue ⟨false, tagName, attrs ++ [(name, x.map denull)]⟩) rfl
        (y ++ '"' :: (close ++ rest)) with hnil | ⟨t', sc, ts, ⟨hclosing, hname, more, hmore⟩, htokens⟩
      · rw [hnil] at h
        cases h
      · have htoken : t'.token sc = .startTag t'.name t'.attrs sc := by
          rw [Tag.token, hclosing]
          rfl
        rw [htokens, htoken, readFrom, ← hmore] at h
        have hpairs := (Token.startTag.inj (List.cons.inj h).1).2.1
        rw [List.append_assoc, List.map_append, map_decode_of_not_mem hattrs,
          List.append_cancel_left_eq] at hpairs
        have hvalue : decodeFrom refs true 0 (x.map denull) = s :=
          congrArg Prod.snd (List.cons.inj hpairs).1
        have hshort : (decodeFrom refs true 0 (x.map denull)).length + 0 ≤ (x.map denull).length :=
          length_decodeFrom_le refs true (Nat.zero_le _)
        rw [hvalue, List.length_map] at hshort
        omega
    · rw [normalizeNewlines_of_not_mem hplain.noReturn] at hquote
      exact hplain.noQuote hquote
  · rw [tokens_value hquote, tokens_append, List.nil_append, hclose, List.singleton_append, readFrom,
      List.map_append, map_decode_of_not_mem hattrs, List.map_cons, map_decode_of_not_mem hattrs',
      ← decode_value_iff hquote]
    constructor
    · intro h
      have hpairs := (Token.startTag.inj (List.cons.inj h).1).2.1
      rw [List.append_cancel_left_eq] at hpairs
      exact congrArg Prod.snd (List.cons.inj hpairs).1
    · intro h
      rw [h]

/-! ## Between tags -/

/-- What makes of a `<` before it the beginning of markup. -/
def opens (c : Char) : Bool := isLetter c || c = '/' || c = '!' || c = '?'

/-- The characters before the first that is dropped or begins markup; what follows the text does not
make a `<` at its end the beginning of markup. -/
def safePart : List Char → List Char
  | [] => []
  | c :: s => if c = null ∨ c = '<' ∧ s.head?.any opens then [] else c :: safePart s

/-- A text between two tags is read back as it is. -/
structure PlainText (refs : CharRefs) (s : List Char) : Prop where
  noTag : ∀ c b, '<' :: c :: b <:+ s → opens c = false
  noNull : null ∉ s
  noReturn : '\r' ∉ s
  noRefs : NoRefs refs false s

theorem length_safePart_le (s : List Char) : (safePart s).length ≤ s.length := by
  induction s with
  | nil => exact Nat.le_refl 0
  | cons c s ih =>
    rw [safePart]
    split_ifs
    · exact Nat.zero_le _
    · exact Nat.succ_le_succ ih

theorem safePart_eq_self_of_length (h : s.length ≤ (safePart s).length) : safePart s = s := by
  induction s with
  | nil => rfl
  | cons c s ih =>
    rw [safePart] at h ⊢
    split_ifs at h ⊢
    · exact absurd h (Nat.not_succ_le_zero _)
    · rw [ih (Nat.le_of_succ_le_succ h)]

theorem safePart_eq_self :
    safePart s = s ↔ null ∉ s ∧ ∀ c b, '<' :: c :: b <:+ s → opens c = false := by
  induction s with
  | nil =>
    refine iff_of_true rfl ⟨List.not_mem_nil, fun c b hb => ?_⟩
    exact absurd (List.suffix_nil.mp hb) (List.cons_ne_nil _ _)
  | cons d s ih =>
    rw [safePart]
    split_ifs with hd
    · refine iff_of_false not_false fun h => ?_
      rcases hd with rfl | ⟨rfl, hopens⟩
      · exact h.1 List.mem_cons_self
      · cases s with
        | nil => cases hopens
        | cons c b => exact absurd (h.2 c b (List.suffix_refl _)) (by simpa using hopens)
    · rw [not_or] at hd
      rw [List.cons.injEq, and_iff_right rfl, ih, List.mem_cons, not_or, and_iff_right (Ne.symm hd.1)]
      refine and_congr_right fun _ => ⟨fun h c b hb => ?_, fun h c b hb => ?_⟩
      · rcases List.suffix_cons_iff.mp hb with heq | hb
        · cases heq
          simpa using hd.2
        · exact h c b hb
      · exact h c b (List.suffix_cons_iff.mpr (.inr hb))

/-- In markup no characters are read. -/
def State.inMarkup : State → Bool
  | .data | .tagOpen | .endTagOpen => false
  | _ => true

/-- What a character does in markup: the markup goes on, or it ends with one token. -/
def StaysOrEnds (r : State × List Token) : Prop :=
  r.1.inMarkup = true ∧ r.2 = [] ∨ ∃ t, r.2 = [t] ∧ ∀ c, t ≠ .char c

theorem staysOrEnds_stay (h : σ.inMarkup = true) : StaysOrEnds (σ, []) := .inl ⟨h, rfl⟩

theorem staysOrEnds_tag (t : Tag) (sc : Bool) : StaysOrEnds (σ, [t.token sc]) := by
  refine .inr ⟨_, rfl, fun c h => ?_⟩
  unfold Tag.token at h
  split_ifs at h

theorem staysOrEnds_inTag (t : Tag) (c : Char) : StaysOrEnds (inTag t c) := by
  unfold inTag
  split_ifs
  · exact staysOrEnds_stay rfl
  · exact staysOrEnds_stay rfl
  · exact staysOrEnds_tag t false
  · exact staysOrEnds_stay rfl

theorem staysOrEnds_inBogus (text : List Char) (c : Char) : StaysOrEnds (inBogus text c) := by
  unfold inBogus
  split_ifs
  · exact .inr ⟨_, rfl, nofun⟩
  · exact staysOrEnds_stay rfl

theorem staysOrEnds_step (hσ : σ.inMarkup = true) (c : Char) : StaysOrEnds (step σ c) := by
  cases σ with
  | data | tagOpen | endTagOpen => cases hσ
  | declaration text =>
    rw [step]
    split_ifs
    · exact staysOrEnds_stay rfl
    · exact staysOrEnds_stay rfl
    · exact staysOrEnds_inBogus text c
  | comment text =>
    rw [step]
    split_ifs
    · exact .inr ⟨_, rfl, nofun⟩
    · exact staysOrEnds_stay rfl
  | bogus text => exact staysOrEnds_inBogus text c
  | tagName closing name =>
    rw [step]
    split_ifs
    · exact staysOrEnds_stay rfl
    · exact staysOrEnds_stay rfl
    · exact staysOrEnds_tag _ false
    · exact staysOrEnds_stay rfl
  | beforeName t => exact staysOrEnds_inTag t c
  | afterValue t => exact staysOrEnds_inTag t c
  | name t name =>
    rw [step]
    split_ifs
    · exact staysOrEnds_stay rfl
    · exact staysOrEnds_stay rfl
    · exact staysOrEnds_stay rfl
    · exact staysOrEnds_tag _ false
    · exact staysOrEnds_stay rfl
  | afterName t name =>
    rw [step]
    split_ifs
    · exact staysOrEnds_stay rfl
    · exact staysOrEnds_stay rfl
    · exact staysOrEnds_inTag _ c
  | beforeValue t name =>
    rw [step]
    split_ifs
    · exact staysOrEnds_stay rfl
    · exact staysOrEnds_stay rfl
    · exact staysOrEnds_tag _ false
    · exact staysOrEnds_stay rfl
  | value t name quote raw =>
    cases quote with
    | some q =>
      rw [step]
      split_ifs <;> exact staysOrEnds_stay rfl
    | none =>
      rw [step]
      split_ifs
      · exact staysOrEnds_stay rfl
      · exact staysOrEnds_tag _ false
      · exact staysOrEnds_stay rfl
  | selfClosing t =>
    rw [step]
    split_ifs
    · exact staysOrEnds_tag t true
    · exact staysOrEnds_inTag t c

theorem leading_tokens_markup (hσ : σ.inMarkup = true) (s : List Char) : leading (tokens σ s) = [] := by
  induction s generalizing σ with
  | nil => cases σ <;> first | rfl | cases hσ
  | cons c s ih =>
    rw [tokens]
    rcases staysOrEnds_step hσ c with ⟨hnext, hnone⟩ | ⟨t, hone, hchar⟩
    · rw [hnone]
      exact ih hnext
    · rw [hone]
      cases t with
      | char d => exact absurd rfl (hchar d)
      | _ => rfl

/-- After a `<` a character that does not open markup is read as if the `<` were any character. -/
theorem tokens_tagOpen (hc : opens c = false) (s : List Char) :
    tokens .tagOpen (c :: s) = .char '<' :: tokens .data (c :: s) := by
  unfold opens at hc
  simp only [Bool.or_eq_false_iff, decide_eq_false_iff_not] at hc
  obtain ⟨⟨⟨hletter, hslash⟩, hbang⟩, hquestion⟩ := hc
  rw [tokens, step, if_neg hbang, if_neg hslash, if_neg hquestion, if_neg (by simp [hletter])]
  rfl

/-- One that opens markup ends the characters. -/
theorem leading_tokens_tagOpen (hc : opens c = true) (hs : s ≠ []) :
    leading (tokens .tagOpen (c :: s)) = [] := by
  rw [tokens, step]
  split_ifs with hbang hslash hquestion hletter
  · exact leading_tokens_markup rfl s
  · cases s with
    | nil => exact absurd rfl hs
    | cons d s =>
      show leading (tokens .endTagOpen (d :: s)) = []
      rw [tokens, step]
      split_ifs
      · exact leading_tokens_markup rfl s
      · rfl
      · unfold inBogus
        split_ifs
        exact leading_tokens_markup rfl s
  · exact leading_tokens_markup rfl s
  · exact leading_tokens_markup rfl s
  · simp [opens, hbang, hslash, hquestion, hletter] at hc

/-- What is read of a text before an end tag. -/
theorem tokens_text (l : Char) (rest u : List Char) :
    ∃ ts, tokens .data (u ++ '<' :: '/' :: l :: rest) = (safePart u).map .char ++ ts ∧ leading ts = [] ∧
      (safePart u = u → ts = tokens .data ('<' :: '/' :: l :: rest)) := by
  have hpost : leading (tokens .data ('<' :: '/' :: l :: rest)) = [] :=
    leading_tokens_tagOpen rfl (List.cons_ne_nil l rest)
  induction u with
  | nil => exact ⟨_, rfl, hpost, fun _ => rfl⟩
  | cons c u ih =>
    obtain ⟨ts, hts, hleading, hself⟩ := ih
    have hcons : safePart (c :: u) = c :: safePart u →
        tokens .data (c :: (u ++ '<' :: '/' :: l :: rest)) =
          .char c :: tokens .data (u ++ '<' :: '/' :: l :: rest) →
        ∃ ts, tokens .data (c :: u ++ '<' :: '/' :: l :: rest) = (safePart (c :: u)).map .char ++ ts ∧
          leading ts = [] ∧ (safePart (c :: u) = c :: u → ts = tokens .data ('<' :: '/' :: l :: rest)) := by
      intro hsafe htokens
      refine ⟨ts, ?_, hleading, fun h => hself ?_⟩
      · rw [List.cons_append, htokens, hts, hsafe]
        rfl
      · rw [hsafe] at h
        exact (List.cons.inj h).2
    have hstop : safePart (c :: u) = [] → leading (tokens .data (c :: u ++ '<' :: '/' :: l :: rest)) = [] →
        ∃ ts, tokens .data (c :: u ++ '<' :: '/' :: l :: rest) = (safePart (c :: u)).map .char ++ ts ∧
          leading ts = [] ∧ (safePart (c :: u) = c :: u → ts = tokens .data ('<' :: '/' :: l :: rest)) := by
      intro hsafe hnone
      exact ⟨_, by rw [hsafe]; rfl, hnone, fun h => absurd (hsafe.symm.trans h) nofun⟩
    by_cases hnull : c = null
    · refine hstop (if_pos (.inl hnull)) ?_
      rw [hnull]
      rfl
    by_cases hlt : c = '<'
    · subst hlt
      cases u with
      | nil => exact hcons rfl rfl
      | cons d u =>
        cases hd : opens d with
        | true =>
          have hne : u ++ '<' :: '/' :: l :: rest ≠ [] := by simp
          exact hstop (if_pos (.inr ⟨rfl, hd⟩)) (leading_tokens_tagOpen hd hne)
        | false =>
          refine hcons (if_neg ?_) (tokens_tagOpen hd _)
          rintro (h | ⟨-, h⟩)
          · exact hnull h
          · rw [List.head?_cons, Option.any_some, hd] at h
            cases h
    · refine hcons (if_neg ?_) ?_
      · rintro (h | ⟨h, -⟩)
        · exact hnull h
        · exact hlt h
      · rw [tokens, step, inData, if_neg hlt, if_neg hnull]
        rfl

/-- **A text between two tags** is read back there, and the tokens around it are those of the page, exactly
when it is plain. -/
theorem parse_chars_iff {pre rest : List Char} {l : Char} (hpre : Leads .data pre .data)
    (hreturn : '\r' ∉ '/' :: l :: rest) :
    parse refs (pre ++ (s ++ '<' :: '/' :: l :: rest)) =
        (feed .data pre).2 ++ (s.map .char ++ readFrom refs 0 (tokens .data ('<' :: '/' :: l :: rest))) ↔
      PlainText refs s := by
  have hpost : leading (tokens .data ('<' :: '/' :: l :: rest)) = [] :=
    leading_tokens_tagOpen rfl (List.cons_ne_nil l rest)
  obtain ⟨ts, hts, hleading, hself⟩ := tokens_text l rest (normalizeNewlines false s)
  rw [parse_append hpre (by decide) hreturn, List.append_cancel_left_eq, hts,
    readFrom_chars (Nat.zero_le _) hleading]
  constructor
  · intro h
    have hread := congrArg leading h
    rw [leading_chars, leading_chars, leading_readFrom (Nat.zero_le _), leading_readFrom (Nat.zero_le _),
      hleading, hpost, decodeFrom, List.append_nil, List.append_nil] at hread
    -- nothing on the way to the text makes it longer
    have hle := length_normalizeNewlines_le false s
    have hle' := length_safePart_le (normalizeNewlines false s)
    have hnoRefs : NoRefs refs false (safePart (normalizeNewlines false s)) := by
      refine noRefs_of_length ?_
      rw [hread]
      omega
    rw [decodeFrom_of_noRefs hnoRefs] at hread
    have hsafe : safePart (normalizeNewlines false s) = normalizeNewlines false s := by
      refine safePart_eq_self_of_length ?_
      rw [hread]
      exact hle
    rw [hsafe] at hread
    have hreturn : '\r' ∉ s := by
      rw [← hread]
      exact return_not_mem_normalizeNewlines false s
    rw [normalizeNewlines_of_not_mem hreturn] at hsafe hnoRefs
    rw [hsafe] at hnoRefs
    obtain ⟨hnull, htag⟩ := safePart_eq_self.mp hsafe
    exact ⟨htag, hnull, hreturn, hnoRefs⟩
  · intro hplain
    have hsafe : safePart s = s := safePart_eq_self.mpr ⟨hplain.noNull, hplain.noTag⟩
    rw [normalizeNewlines_of_not_mem hplain.noReturn] at hself ⊢
    rw [hself hsafe, hsafe, decodeFrom_of_noRefs hplain.noRefs]

end Html
end Cococoir
