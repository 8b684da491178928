import Mathlib.Data.List.Basic

/-! `grep.c`: the matcher of regular expressions, and the loop over what `read` delivers. A C
string is the list of its bytes before the NUL. -/

namespace Xv6.Grep

open List

def caret : UInt8 := 94
def dollar : UInt8 := 36
def star : UInt8 := 42
def dot : UInt8 := 46
def newline : UInt8 := 10

def fits (c x : UInt8) : Bool := c == dot || c == x

/-- `matchstar` of `c`, with `here` for `matchhere` of the rest of the expression. -/
def matchstar (c : UInt8) (here : List UInt8 → Bool) : List UInt8 → Bool
  | [] => here []
  | x :: text => here (x :: text) || (fits c x && matchstar c here text)

def matchone (c : UInt8) (here : List UInt8 → Bool) : List UInt8 → Bool
  | [] => false
  | x :: text => fits c x && here text

def matchhere : List UInt8 → List UInt8 → Bool
  | [], _ => true
  | [c], text => if c = dollar then text.isEmpty else matchone c (fun _ => true) text
  | c :: d :: re, text =>
    if d = star then matchstar c (matchhere re) text else matchone c (matchhere (d :: re)) text

/-- The loop of `match`, which also looks at the empty string. -/
def search (here : List UInt8 → Bool) : List UInt8 → Bool
  | [] => here []
  | x :: text => here (x :: text) || search here text

def match_ (re text : List UInt8) : Bool :=
  if re.head? = some caret then matchhere re.tail text else search (matchhere re) text

/-! What a pattern means. -/

structure Item where
  char : UInt8
  starred : Bool

/-- The pattern after its `^`. -/
def body (re : List UInt8) : List UInt8 := if re.head? = some caret then re.tail else re

/-- The items of a pattern, and whether it ends in the anchor. -/
def items : List UInt8 → List Item × Bool
  | [] => ([], false)
  | [c] => if c = dollar then ([], true) else ([⟨c, false⟩], false)
  | c :: d :: re =>
    if d = star then (⟨c, true⟩ :: (items re).1, (items re).2)
    else (⟨c, false⟩ :: (items (d :: re)).1, (items (d :: re)).2)

/-- The strings that are a concatenation of strings matched by the items. -/
def Spells : List Item → List UInt8 → Prop
  | [], word => word = []
  | item :: rest, word => ∃ first last, word = first ++ last ∧ (∀ x ∈ first, fits item.char x) ∧
      (item.starred = false → first.length = 1) ∧ Spells rest last

def Starts (re text : List UInt8) : Prop :=
  ∃ word rest, text = word ++ rest ∧ ((items re).2 = true → rest = []) ∧ Spells (items re).1 word

theorem matchstar_iff (c : UInt8) (here : List UInt8 → Bool) (text : List UInt8) :
    matchstar c here text = true ↔ ∃ first last, text = first ++ last ∧ (∀ x ∈ first, fits c x) ∧ here last = true := by
  induction text with
  | nil => simp [matchstar]
  | cons x text ih =>
    rw [matchstar, Bool.or_eq_true, Bool.and_eq_true, ih]
    constructor
    · rintro (hit | ⟨admits, first, last, rfl, all, hit⟩)
      · exact ⟨[], x :: text, rfl, by simp, hit⟩
      · exact ⟨x :: first, last, rfl, forall_mem_cons.mpr ⟨admits, all⟩, hit⟩
    · rintro ⟨first, last, same, all, hit⟩
      cases first with
      | nil =>
        rw [nil_append] at same
        exact .inl (same ▸ hit)
      | cons y first =>
        obtain ⟨rfl, rfl⟩ := List.cons.inj same
        obtain ⟨admits, all⟩ := forall_mem_cons.mp all
        exact .inr ⟨admits, first, last, rfl, all, hit⟩

theorem search_eq (here : List UInt8 → Bool) (text : List UInt8) : search here text = matchstar dot here text := by
  induction text with
  | nil => rfl
  | cons x text ih => simp [search, matchstar, fits, ih]

theorem matchone_iff (c : UInt8) (here : List UInt8 → Bool) (text : List UInt8) :
    matchone c here text = true ↔ ∃ x rest, text = x :: rest ∧ fits c x ∧ here rest = true := by
  cases text <;> simp [matchone]

theorem spells_one {c : UInt8} {rest : List Item} {word : List UInt8} :
    Spells (⟨c, false⟩ :: rest) word ↔ ∃ x last, word = x :: last ∧ fits c x ∧ Spells rest last := by
  constructor
  · rintro ⟨fst, last, rfl, all, single, spells⟩
    obtain ⟨x, rfl⟩ := length_eq_one_iff.mp (single rfl)
    exact ⟨x, last, rfl, all x (by simp), spells⟩
  · rintro ⟨x, last, rfl, admits, spells⟩
    exact ⟨[x], last, rfl, by simpa using admits, fun _ => rfl, spells⟩

theorem starts_one {c d : UInt8} {re text : List UInt8} (plain : d ≠ star) : Starts (c :: d :: re) text ↔
    ∃ x rest, text = x :: rest ∧ fits c x ∧ Starts (d :: re) rest := by
  simp only [Starts, items, if_neg plain, spells_one]
  constructor
  · rintro ⟨_, rest, rfl, anchor, x, last, rfl, admits, spells⟩
    exact ⟨x, last ++ rest, rfl, admits, last, rest, rfl, anchor, spells⟩
  · rintro ⟨x, _, rfl, admits, last, rest, rfl, anchor, spells⟩
    exact ⟨x :: last, rest, rfl, anchor, x, last, rfl, admits, spells⟩

theorem starts_many {c : UInt8} {re text : List UInt8} : Starts (c :: star :: re) text ↔
    ∃ first last, text = first ++ last ∧ (∀ x ∈ first, fits c x) ∧ Starts re last := by
  simp only [Starts, items, if_pos, Spells]
  constructor
  · rintro ⟨_, rest, rfl, anchor, first, last, rfl, all, -, spells⟩
    exact ⟨first, last ++ rest, by simp, all, last, rest, rfl, anchor, spells⟩
  · rintro ⟨first, _, rfl, all, last, rest, rfl, anchor, spells⟩
    exact ⟨first ++ last, rest, by simp, anchor, first, last, rfl, all, by simp, spells⟩

theorem matchhere_iff : ∀ re text : List UInt8, matchhere re text = true ↔ Starts re text
  | [], text => by simp [matchhere, Starts, items, Spells]
  | [c], text => by
    rw [matchhere, Starts, items]
    by_cases anchor : c = dollar
    · simp [Spells, anchor, List.isEmpty_iff]
    · simp [if_neg anchor, spells_one, matchone_iff, Spells]
  | c :: d :: re, text => by
    rw [matchhere]
    by_cases starred : d = star
    · subst starred
      rw [if_pos rfl, matchstar_iff, starts_many]
      simp only [matchhere_iff re]
    · rw [if_neg starred, matchone_iff, starts_one starred]
      simp only [matchhere_iff (d :: re)]

/-- `match` returns 1 exactly when a part of the text is spelled by the items: a part at its start if the
pattern begins with `^`, at its end if it has the anchor. -/
theorem match_correct (re text : List UInt8) : match_ re text = true ↔
    ∃ before word after, text = before ++ (word ++ after) ∧ (re.head? = some caret → before = []) ∧
      ((items (body re)).2 = true → after = []) ∧ Spells (items (body re)).1 word := by
  by_cases caret_ : re.head? = some caret
  · rw [match_, body, if_pos caret_, if_pos caret_, matchhere_iff]
    constructor
    · rintro ⟨word, rest, rfl, anchor, spells⟩
      exact ⟨[], word, rest, rfl, fun _ => rfl, anchor, spells⟩
    · rintro ⟨before, word, rest, rfl, start, anchor, spells⟩
      rw [start caret_]
      exact ⟨word, rest, rfl, anchor, spells⟩
  · rw [match_, body, if_neg caret_, if_neg caret_, search_eq, matchstar_iff]
    simp only [matchhere_iff, fits, beq_self_eq_true, Bool.true_or, implies_true, true_and]
    constructor
    · rintro ⟨before, _, rfl, word, rest, rfl, anchor, spells⟩
      exact ⟨before, word, rest, rfl, fun start => absurd start caret_, anchor, spells⟩
    · rintro ⟨before, word, rest, rfl, _, anchor, spells⟩
      exact ⟨before, word ++ rest, rfl, word, rest, rfl, anchor, spells⟩

/-! The loop of `grep`. -/

/-- The inner loop from `p` on, where `line` is what `strchr` has passed: what is written, and what is
left from `p` on at the end. -/
def writeLines (pattern line : List UInt8) : List UInt8 → List UInt8 × List UInt8
  | [] => ([], line)
  | c :: text =>
    if c = newline then
      let (out, p) := writeLines pattern [] text
      (if match_ pattern line then line ++ newline :: out else out, p)
    else writeLines pattern (line ++ [c]) text

/-- What `grep` writes when the calls of `read` return these pieces, starting with `buf` in the buffer;
none if a call cannot return its piece. -/
def grep (pattern : List UInt8) : List UInt8 → List (List UInt8) → Option (List UInt8)
  | _, [] => some []
  | buf, piece :: pieces =>
    if piece = [] ∨ 1024 - buf.length - 1 < piece.length then none
    else
      let (out, p) := writeLines pattern [] (buf ++ piece)
      -- nothing is kept if the buffer holds no newline
      let rest := if p.length = (buf ++ piece).length then [] else p
      (grep pattern rest pieces).map (out ++ ·)

/-- The lines of a text that end in a newline, the first of them after `line`. -/
def linesOf (line : List UInt8) : List UInt8 → List (List UInt8)
  | [] => []
  | c :: text => if c = newline then line :: linesOf [] text else linesOf (line ++ [c]) text

def matching (pattern input : List UInt8) : List UInt8 :=
  ((linesOf [] input).filter (match_ pattern)).flatMap (· ++ [newline])

def lastOf (line : List UInt8) : List UInt8 → List UInt8
  | [] => line
  | c :: text => if c = newline then lastOf [] text else lastOf (line ++ [c]) text

theorem writeLines_eq (pattern line text : List UInt8) : writeLines pattern line text =
    (((linesOf line text).filter (match_ pattern)).flatMap (· ++ [newline]), lastOf line text) := by
  induction text generalizing line with
  | nil => rfl
  | cons c text ih =>
    by_cases ends : c = newline
    · simp only [writeLines, linesOf, lastOf, if_pos ends, ih, filter_cons]
      split <;> simp
    · simp only [writeLines, linesOf, lastOf, if_neg ends, ih]

theorem linesOf_append (line fst snd : List UInt8) :
    linesOf line (fst ++ snd) = linesOf line fst ++ linesOf (lastOf line fst) snd := by
  induction fst generalizing line with
  | nil => rfl
  | cons c fst ih =>
    by_cases ends : c = newline <;> simp [linesOf, lastOf, ends, ih]

theorem lastOf_newline (line text : List UInt8) (low : newline ∉ line) : newline ∉ lastOf line text := by
  induction text generalizing line with
  | nil => exact low
  | cons c text ih =>
    by_cases ends : c = newline
    · simpa [lastOf, ends] using ih [] (by simp)
    · simpa [lastOf, ends] using ih (line ++ [c]) (by simp [low, Ne.symm ends])

theorem lastOf_plain (line text : List UInt8) (plain : newline ∉ text) :
    lastOf line text = line ++ text ∧ linesOf line text = [] := by
  induction text generalizing line with
  | nil => simp [lastOf, linesOf]
  | cons c text ih =>
    rw [mem_cons, not_or] at plain
    simpa [lastOf, linesOf, Ne.symm plain.1] using ih (line ++ [c]) plain.2

theorem lastOf_shorter (line text : List UInt8) (has : newline ∈ text) : (lastOf line text).length < text.length := by
  induction text generalizing line with
  | nil => cases has
  | cons c text ih =>
    have later : newline ∈ text → ∀ line, (lastOf line text).length < (c :: text).length :=
      fun there line => Nat.lt_succ_of_lt (ih line there)
    by_cases ends : c = newline
    · rw [lastOf, if_pos ends]
      by_cases there : newline ∈ text
      · exact later there []
      · simp [(lastOf_plain [] text there).1]
    · rw [lastOf, if_neg ends]
      exact later ((mem_cons.mp has).resolve_left (Ne.symm ends)) _

/-- Pieces that the calls of `read` can return: none empty or longer than the room in the buffer. -/
def Delivers : List UInt8 → List (List UInt8) → Prop
  | _, [] => True
  | buf, piece :: pieces => piece ≠ [] ∧ piece.length ≤ 1024 - buf.length - 1 ∧
      Delivers (if newline ∈ buf ++ piece then lastOf [] (buf ++ piece) else []) pieces

/-- No piece without a newline comes before one with a newline. -/
def Unbroken (pieces : List (List UInt8)) : Prop :=
  pieces.Pairwise fun piece later => newline ∈ later → newline ∈ piece

theorem matching_plain (pattern text : List UInt8) (plain : newline ∉ text) : matching pattern text = [] := by
  simp [matching, lastOf_plain [] text plain]

theorem matching_append (pattern fst snd : List UInt8) : matching pattern (fst ++ snd) =
    matching pattern fst ++ matching pattern (lastOf [] fst ++ snd) := by
  have carry := lastOf_plain [] _ (lastOf_newline [] fst (by simp))
  rw [matching, matching, matching, linesOf_append _ fst, linesOf_append _ (lastOf [] fst), carry.1, carry.2]
  simp

/-- The empty pattern matches every line: only what is behind the last newline is missing. -/
theorem matching_all (line text : List UInt8) :
    ((linesOf line text).filter (match_ [])).flatMap (· ++ [newline]) ++ lastOf line text = line ++ text := by
  induction text generalizing line with
  | nil => simp [linesOf, lastOf]
  | cons c text ih =>
    by_cases ends : c = newline
    · have every : match_ [] line = true := (match_correct [] line).mpr ⟨[], [], line, by simp [items, body, Spells]⟩
      simp [linesOf, lastOf, ends, every, ih]
    · simp [linesOf, lastOf, ends, ih]

theorem lastOf_again (line text : List UInt8) (has : newline ∈ text) : lastOf line text = lastOf [] text := by
  induction text generalizing line with
  | nil => cases has
  | cons c text ih =>
    by_cases ends : c = newline
    · simp [lastOf, ends]
    · have later := (mem_cons.mp has).resolve_left (Ne.symm ends)
      simp [lastOf, ends, ih _ later]

theorem matching_longer (line text : List UInt8) (plain : newline ∉ line) (has : newline ∈ text) :
    matching [] (line ++ text) = line ++ matching [] text := by
  have joined := matching_all line text
  have whole : matching [] text ++ lastOf [] text = text := matching_all [] text
  obtain ⟨carry, none⟩ := lastOf_plain [] line plain
  rw [matching, linesOf_append, carry, none]
  refine (append_left_inj (lastOf [] text)).mp ?_
  rw [append_assoc, whole, ← lastOf_again line text has]
  exact joined

theorem grep_from (pattern buf : List UInt8) (pieces : List (List UInt8)) (unended : newline ∉ buf)
    (delivers : Delivers buf pieces) (unbroken : Unbroken pieces) :
    grep pattern buf pieces = some (matching pattern (buf ++ pieces.flatten)) := by
  induction pieces generalizing buf with
  | nil => simp [grep, matching_plain pattern buf unended]
  | cons piece pieces ih =>
    obtain ⟨nonempty, room, delivers⟩ := delivers
    obtain ⟨later, unbroken⟩ := pairwise_cons.mp unbroken
    rw [grep, if_neg (by simp [nonempty, room]), flatten_cons, ← append_assoc, matching_append]
    simp only [writeLines_eq]
    by_cases has : newline ∈ buf ++ piece
    · rw [if_pos has] at delivers
      rw [if_neg (Nat.ne_of_lt (lastOf_shorter [] _ has)), ih _ (lastOf_newline [] _ (by simp)) delivers unbroken]
      rfl
    · -- nothing behind the buffer has a newline, so that what is dropped is of no line
      have rest : newline ∉ pieces.flatten := fun there => by
        obtain ⟨next, member, there⟩ := mem_flatten.mp there
        exact has (mem_append_right _ (later next member there))
      rw [if_neg has] at delivers
      obtain ⟨carry, none⟩ := lastOf_plain [] _ has
      rw [carry, nil_append, if_pos rfl, ih [] (by simp) delivers unbroken, matching_plain _ _ (by simpa using rest),
        matching_plain _ _ has, matching_plain _ _ (by simp_all)]
      simp [none]

/-- With the empty pattern no more is written than there are lines, and less where a piece is dropped. -/
theorem grep_short (buf : List UInt8) (pieces : List (List UInt8)) (unended : newline ∉ buf)
    (delivers : Delivers buf pieces) : ∃ out, grep [] buf pieces = some out ∧
      out.length ≤ (matching [] (buf ++ pieces.flatten)).length ∧
      (out.length = (matching [] (buf ++ pieces.flatten)).length → Unbroken pieces) := by
  induction pieces generalizing buf with
  | nil => exact ⟨[], rfl, Nat.zero_le _, fun _ => .nil⟩
  | cons piece pieces ih =>
    obtain ⟨nonempty, room, delivers⟩ := delivers
    rw [grep, if_neg (by simp [nonempty, room]), flatten_cons, ← append_assoc]
    simp only [writeLines_eq]
    by_cases has : newline ∈ buf ++ piece
    · rw [if_pos has] at delivers
      obtain ⟨out, ran, most, all⟩ := ih _ (lastOf_newline [] _ (by simp)) delivers
      have here : newline ∈ piece := (mem_append.mp has).resolve_left unended
      rw [if_neg (Nat.ne_of_lt (lastOf_shorter [] _ has)), ran, matching_append]
      refine ⟨_, rfl, ?_, fun same => pairwise_cons.mpr ⟨fun _ _ _ => here, all ?_⟩⟩
      · simpa [matching] using most
      · simpa [matching] using same
    · rw [if_neg has] at delivers
      obtain ⟨out, ran, most, all⟩ := ih [] (by simp) delivers
      obtain ⟨carry, none⟩ := lastOf_plain [] _ has
      rw [carry, nil_append, if_pos rfl, ran, none]
      refine ⟨out, by simp, ?_⟩
      by_cases rest : newline ∈ pieces.flatten
      · have some := length_pos_of_ne_nil nonempty
        rw [matching_longer _ _ has rest, length_append, length_append]
        rw [nil_append] at most
        exact ⟨by omega, fun same => by omega⟩
      · rw [nil_append, matching_plain _ _ rest] at most all
        refine ⟨Nat.le_trans most (Nat.zero_le _), fun _ => pairwise_cons.mpr ⟨fun next member there => ?_,
          all (Nat.le_zero.mp most)⟩⟩
        exact absurd (mem_flatten.mpr ⟨next, member, there⟩) rest

/-- `grep` writes the lines that match, for every pattern, exactly if no call of `read` that returns no
newline comes before one that returns a newline. -/
theorem grep_lines (pieces : List (List UInt8)) (delivers : Delivers [] pieces) :
    (∀ pattern, grep pattern [] pieces = some (matching pattern pieces.flatten)) ↔ Unbroken pieces := by
  constructor
  · intro written
    obtain ⟨out, ran, _, all⟩ := grep_short [] pieces (by simp) delivers
    cases (written []).symm.trans ran
    exact all rfl
  · intro unbroken pattern
    exact grep_from pattern [] pieces (by simp) delivers unbroken

theorem grep_lines_two : grep [97] [] [[97, 10, 98], [97, 10]] = some [97, 10, 98, 97, 10] :=
  (grep_lines [[97, 10, 98], [97, 10]] (by simp [Delivers, newline, lastOf])).mpr (by simp [Unbroken, newline]) [97]

/-- The start of a line is lost if it arrives alone. -/
theorem grep_loses_line : Delivers [] [[97], [98, 10]] ∧ grep [97] [] [[97], [98, 10]] = some [] ∧
    matching [97] [97, 98, 10] = [97, 98, 10] := by
  refine ⟨by simp [Delivers, newline], by decide, by decide⟩

end Xv6.Grep
