import Tracewake.JsonText.Value

/-!
# Lines of a text

`str.splitlines`, which takes more characters for the end of a line than a writer of lines
puts there, and what it makes of lines that were joined.
-/

namespace Tracewake.Texts

open JsonText (Text)

/-- The characters at which `splitlines` ends a line. -/
def isLineBreak (c : Char) : Bool :=
  ['\n', '\r', '\x0b', '\x0c', '\x1c', '\x1d', '\x1e', '\u0085', '\u2028', '\u2029'].contains c

/-- The lines from here on, with the beginning of the first one. -/
def splitFrom : Text → Text → List Text
  | [], [] => []
  | current, [] => [current]
  | current, '\r' :: '\n' :: rest => current :: splitFrom [] rest
  | current, c :: rest =>
    if isLineBreak c then current :: splitFrom [] rest else splitFrom (current ++ [c]) rest

/-- `splitlines`. -/
def splitlines (text : Text) : List Text := splitFrom [] text

/-- Every line with a line feed behind it. -/
def unlines (lines : List Text) : Text := lines.flatMap fun line => line ++ ['\n']

/-- A character that is no carriage return ends the line or goes on with it. -/
theorem splitFrom_cons {current rest : Text} {c : Char} (hc : c ≠ '\r') :
    splitFrom current (c :: rest) =
      if isLineBreak c then current :: splitFrom [] rest else splitFrom (current ++ [c]) rest := by
  cases current <;> rw [splitFrom] <;> first | rfl | (intro _ h; cases h; exact absurd rfl hc)

/-- A line without a line break is split off. -/
theorem splitFrom_line {line : Text} (h : ∀ c ∈ line, isLineBreak c = false) (current rest : Text) :
    splitFrom current (line ++ '\n' :: rest) = (current ++ line) :: splitFrom [] rest := by
  induction line generalizing current with
  | nil =>
    rw [List.nil_append, splitFrom_cons (by decide), List.append_nil]
    rfl
  | cons c line ih =>
    have hc := h c List.mem_cons_self
    have hr : c ≠ '\r' := by
      rintro rfl
      cases hc
    rw [List.cons_append, splitFrom_cons hr, hc, if_neg Bool.false_ne_true,
      ih (fun d hd => h d (List.mem_cons_of_mem _ hd)), List.append_assoc]
    rfl

/-- Lines without line breaks are read back. -/
theorem splitlines_unlines {lines : List Text}
    (h : ∀ line ∈ lines, ∀ c ∈ line, isLineBreak c = false) :
    splitlines (unlines lines) = lines := by
  induction lines with
  | nil => rfl
  | cons line lines ih =>
    have hrest := ih fun other hother => h other (List.mem_cons_of_mem _ hother)
    rw [splitlines] at hrest ⊢
    rw [unlines, List.flatMap_cons, List.append_assoc]
    exact (splitFrom_line (h line List.mem_cons_self) [] _).trans (congrArg _ hrest)

/-- Without carriage returns every line break ends one line. -/
theorem length_splitFrom {text : Text} (hreturn : '\r' ∉ text)
    (hend : ∀ c, text.getLast? = some c → isLineBreak c = true) {current : Text}
    (hcurrent : text = [] → current = []) :
    (splitFrom current text).length = text.countP isLineBreak := by
  induction text generalizing current with
  | nil =>
    rw [hcurrent rfl]
    rfl
  | cons c text ih =>
    have hc : c ≠ '\r' := fun h => hreturn (h ▸ List.mem_cons_self)
    have hrest : '\r' ∉ text := fun h => hreturn (List.mem_cons_of_mem _ h)
    have hlast : ∀ d, text.getLast? = some d → isLineBreak d = true := by
      intro d hd
      refine hend d ?_
      rw [List.getLast?_cons, hd]
      rfl
    rw [splitFrom_cons hc, List.countP_cons]
    cases hbreak : isLineBreak c with
    | true =>
      rw [if_pos rfl, List.length_cons, ih hrest hlast (fun _ => rfl)]
      rfl
    | false =>
      rw [if_neg Bool.false_ne_true, ih hrest hlast ?_]
      · rfl
      · rintro rfl
        have hends := hend c rfl
        rw [hbreak] at hends
        cases hends

/-- Lines that are joined have a line of their own for each line break in them. -/
theorem length_splitlines_unlines {lines : List Text} (h : ∀ line ∈ lines, '\r' ∉ line) :
    (splitlines (unlines lines)).length =
      lines.length + lines.flatten.countP isLineBreak := by
  have hcount : (unlines lines).countP isLineBreak =
      lines.length + lines.flatten.countP isLineBreak := by
    clear h
    induction lines with
    | nil => rfl
    | cons line lines ih =>
      have hfeed : ['\n'].countP isLineBreak = 1 := rfl
      rw [unlines] at ih ⊢
      rw [List.flatMap_cons, List.countP_append, List.countP_append, hfeed, ih,
        List.flatten_cons, List.countP_append, List.length_cons]
      omega
  rw [splitlines, ← hcount]
  refine length_splitFrom ?_ ?_ (fun _ => rfl)
  · rw [unlines, List.mem_flatMap]
    rintro ⟨line, hline, hmem⟩
    rcases List.mem_append.mp hmem with hmem | hmem
    · exact h line hline hmem
    · exact absurd (List.mem_singleton.mp hmem) (by decide)
  · intro c hc
    rcases List.eq_nil_or_concat' lines with rfl | ⟨front, line, rfl⟩
    · cases hc
    · rw [unlines, List.flatMap_append, List.flatMap_singleton, ← List.append_assoc,
        List.getLast?_concat] at hc
      cases hc
      rfl

/-- Joined lines are read back as so many lines if and only if none has a line break. -/
theorem splitlines_length_iff {lines : List Text} (h : ∀ line ∈ lines, '\r' ∉ line) :
    (splitlines (unlines lines)).length = lines.length ↔
      ∀ line ∈ lines, ∀ c ∈ line, isLineBreak c = false := by
  rw [length_splitlines_unlines h, Nat.add_eq_left, List.countP_eq_zero]
  constructor
  · intro hclean line hline c hc
    exact Bool.eq_false_iff.mpr (hclean c (List.mem_flatten.mpr ⟨line, hline, hc⟩))
  · intro hclean c hc
    obtain ⟨line, hline, hc⟩ := List.mem_flatten.mp hc
    exact Bool.eq_false_iff.mp (hclean line hline c hc)

/-! ## Lines of a file -/

/-- Universal newlines: a text file is read with every line end as a line feed. -/
def universal : Text → Text
  | [] => []
  | '\r' :: '\n' :: rest => '\n' :: universal rest
  | c :: rest => (if c = '\r' then '\n' else c) :: universal rest

/-- The lines from here on, with the beginning of the first one and with their line feeds. -/
def linesFrom : Text → Text → List Text
  | [], [] => []
  | current, [] => [current]
  | current, c :: rest =>
    if c = '\n' then (current ++ ['\n']) :: linesFrom [] rest else linesFrom (current ++ [c]) rest

/-- The lines of a text file, as iterating over it gives them. -/
def fileLines (text : Text) : List Text := linesFrom [] (universal text)

/-- A character that is no carriage return is kept. -/
theorem universal_cons {c : Char} (hc : c ≠ '\r') (rest : Text) :
    universal (c :: rest) = c :: universal rest := by
  rw [universal, if_neg hc]
  intro _ h
  exact absurd h hc

/-- Without carriage returns nothing is changed. -/
theorem universal_of_notMem {text : Text} (h : '\r' ∉ text) : universal text = text := by
  induction text with
  | nil => rfl
  | cons c text ih =>
    have hc : c ≠ '\r' := fun heq => h (heq ▸ List.mem_cons_self)
    rw [universal_cons hc, ih fun hmem => h (List.mem_cons_of_mem _ hmem)]

/-- A line without a line feed is read up to its end. -/
theorem linesFrom_line {line : Text} (h : '\n' ∉ line) (current rest : Text) :
    linesFrom current (line ++ '\n' :: rest) = (current ++ line ++ ['\n']) :: linesFrom [] rest := by
  induction line generalizing current with
  | nil =>
    rw [List.nil_append, List.append_nil]
    cases current <;> rfl
  | cons c line ih =>
    have hc : c ≠ '\n' := fun heq => h (heq ▸ List.mem_cons_self)
    have hrest : '\n' ∉ line := fun hmem => h (List.mem_cons_of_mem _ hmem)
    have hstep : linesFrom current (c :: (line ++ '\n' :: rest)) =
        linesFrom (current ++ [c]) (line ++ '\n' :: rest) := by
      cases current <;> rw [linesFrom, if_neg hc]
    rw [List.cons_append, hstep, ih hrest, List.append_assoc current [c]]
    rfl

/-- Lines that were written are read back. -/
theorem fileLines_unlines {lines : List Text} (hreturn : ∀ line ∈ lines, '\r' ∉ line)
    (hfeed : ∀ line ∈ lines, '\n' ∉ line) :
    fileLines (unlines lines) = lines.map fun line => line ++ ['\n'] := by
  have hplain : '\r' ∉ unlines lines := by
    rw [unlines, List.mem_flatMap]
    rintro ⟨line, hline, hmem⟩
    rcases List.mem_append.mp hmem with hmem | hmem
    · exact hreturn line hline hmem
    · exact absurd (List.mem_singleton.mp hmem) (by decide)
  rw [fileLines, universal_of_notMem hplain]
  clear hplain hreturn
  induction lines with
  | nil => rfl
  | cons line lines ih =>
    have hrest := ih fun other hother => hfeed other (List.mem_cons_of_mem _ hother)
    rw [unlines, List.flatMap_cons, List.append_assoc]
    exact (linesFrom_line (hfeed line List.mem_cons_self) [] _).trans (congrArg _ hrest)

end Tracewake.Texts
