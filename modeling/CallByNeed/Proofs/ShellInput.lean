import CallByNeed.Proofs.TextLines
import CallByNeed.Shell

/-!
# The shell neither loses nor repeats its input

The shell keeps the lines of a program until they are complete, and then hands them to its session
as one text. Lines that are commands or blank go by without a trace, and it does not matter whether
a text fails when it is run.

`Shell.handed` lists the texts that were handed over. They consist of consecutive lines of the
programs, each line is in one of them or still pending, and a text is handed over as soon as it is
complete (`Shell.Accounts`).
-/

namespace CallByNeed

/-! ## Lines of programs -/

/-- Whether the command is to go on with a program. -/
def Command.isSource : Command → Bool
  | .source _ => true
  | _ => false

/-- The lines that are parts of programs, without white space at their ends. -/
def programLines (lines : List String) : List String :=
  (lines.filter fun line => (Command.parse line).isSource).map Text.strip

/-- A line that is no command is kept without the white space at its ends, and is not empty then. -/
theorem Command.eq_strip_of_parse {line text : String} (h : Command.parse line = .source text) :
    text = Text.strip line ∧ text ≠ "" := by
  rw [Command.parse] at h
  split at h
  · cases h
  · cases h
  · next hblank _ =>
    have hne : Text.strip line ≠ "" := fun heq => hblank (by rw [heq]; rfl)
    split at h <;> cases h
    exact ⟨rfl, hne⟩

/-! ## Lines one below the other -/

section

variable {l : List String}

/-- Lines that are not empty make up a text that is not empty. -/
theorem intercalate_eq_empty_iff (hl : ∀ line ∈ l, line ≠ "") :
    "\n".intercalate l = "" ↔ l = [] := by
  cases l with
  | nil => simp
  | cons line rest =>
    have hne : line ≠ "" := hl line List.mem_cons_self
    cases rest with
    | nil => simpa using hne
    | cons => simp [String.intercalate_cons_cons]

/-- Texts one below the other are their lines one below the other. -/
theorem intercalate_flatten {parts : List (List String)} (h : ∀ part ∈ parts, part ≠ []) :
    "\n".intercalate (parts.map "\n".intercalate) = "\n".intercalate parts.flatten := by
  induction parts with
  | nil => rfl
  | cons part parts ih =>
    obtain ⟨hpart, hparts⟩ := List.forall_mem_cons.1 h
    cases parts with
    | nil => simp
    | cons part' parts =>
      have hrest : (part' :: parts).flatten ≠ [] := by
        simp [(List.forall_mem_cons.1 hparts).1]
      rw [List.map_cons, String.intercalate_cons_of_ne_nil (by simp), ih hparts,
        ← String.intercalate_append_of_ne_nil hpart hrest]
      rfl

end

/-! ## What a line does -/

namespace Shell

/-- The text that is pending after one more line of a program, unless it is complete. -/
def extended (shell : Shell) (line : String) : String :=
  if shell.pending = "" then line else shell.pending ++ "\n" ++ line

/-- The text that a line makes the shell hand to its session, if it completes one. -/
def handed? (shell : Shell) (line : String) : Option String :=
  match Command.parse line with
  | .source line =>
    if isComplete (shell.extended line) then some (shell.extended line) else none
  | _ => none

/-- The shell after some lines. -/
def after (shell : Shell) (lines : List String) : Shell :=
  lines.foldl (fun shell line => (shell.handle line).2) shell

/-- The texts that some lines make the shell hand to its session, in order. -/
def handed (shell : Shell) : List String → List String
  | [] => []
  | line :: lines => (shell.handed? line).toList ++ (shell.handle line).2.handed lines

/-- The shell has run a text in its session and waits for a new one. -/
def finished (shell : Shell) (source : String) : Shell :=
  { shell with session := (shell.session.add source).2, pending := "", prompt := .primary }

/-- The shell waits for more lines of a text. -/
def awaiting (shell : Shell) (source : String) : Shell :=
  { shell with pending := source, prompt := .secondary }

/-- What a line can do. A blank line or a command leaves the shell as it is. A line of a program is
kept, or it completes a text, which is handed over; then nothing is pending any more, whatever comes
of the text. -/
inductive Steps (shell : Shell) (line : String) : Option String → Shell → Prop where
  | command : (Command.parse line).isSource = false → Steps shell line none shell
  | kept : (Command.parse line).isSource = true →
      isComplete (shell.extended (Text.strip line)) = false →
      Steps shell line none (shell.awaiting (shell.extended (Text.strip line)))
  | ran : (Command.parse line).isSource = true →
      isComplete (shell.extended (Text.strip line)) = true →
      Steps shell line (some (shell.extended (Text.strip line)))
        (shell.finished (shell.extended (Text.strip line)))

/-- Handling a line does one of these. -/
theorem steps_handle (shell : Shell) (line : String) :
    shell.Steps line (shell.handed? line) (shell.handle line).2 := by
  rw [handed?, handle]
  cases hline : Command.parse line with
  | source text =>
    obtain ⟨rfl, -⟩ := Command.eq_strip_of_parse hline
    have hsource : (Command.parse line).isSource = true := by rw [hline]; rfl
    dsimp only
    rw [addLine, ← extended]
    cases hcomplete : isComplete (shell.extended (Text.strip line)) with
    | true => exact .ran hsource hcomplete
    | false => exact .kept hsource hcomplete
  | _ => exact .command (by rw [hline]; rfl)

/-! ## What lines have done -/

/-- Lines that are handed over as one text: all of them together are complete, and no fewer of them
from the first on are. -/
structure Completes (part : List String) : Prop where
  complete : isComplete ("\n".intercalate part) = true
  least : ∀ n < part.length, isComplete ("\n".intercalate (part.take n)) = false

/-- The lines of programs so far are those of `parts`, which were handed over, and those of `rest`,
which are pending. -/
structure Accounts (shell : Shell) (taken : List String) (parts : List (List String))
    (rest : List String) : Prop where
  lines : taken = parts.flatten ++ rest
  completes : ∀ part ∈ parts, Completes part
  /-- What is pending is not complete, and never was. -/
  incomplete : ∀ n ≤ rest.length, isComplete ("\n".intercalate (rest.take n)) = false
  nonempty : ∀ line ∈ rest, line ≠ ""
  pending : shell.pending = "\n".intercalate rest
  prompt : shell.prompt = .secondary ↔ rest ≠ []

/-- An empty input is not complete. -/
theorem isComplete_empty : isComplete "" = false := by
  decide +kernel

/-- Lines that are complete together are some lines. -/
theorem Completes.ne_nil {part : List String} (h : Completes part) : part ≠ [] := by
  rintro rfl
  exact Bool.false_ne_true (isComplete_empty.symm.trans h.complete)

/-- At the start no line has been taken. -/
theorem accounts_start (limits : Limits) (colour : Bool) :
    (start limits colour).Accounts [] [] [] where
  lines := rfl
  completes := by simp
  incomplete n hn := by
    rw [List.take_nil]
    exact isComplete_empty
  nonempty := by simp
  pending := rfl
  prompt := by simp [start]

section

variable {shell : Shell} {taken rest : List String} {parts : List (List String)}

/-- Nothing is pending exactly if no line is left over. -/
theorem Accounts.pending_eq_empty_iff (h : shell.Accounts taken parts rest) :
    shell.pending = "" ↔ rest = [] := by
  rw [h.pending, intercalate_eq_empty_iff h.nonempty]

/-- With one more line, the text is the pending lines and that line. -/
theorem Accounts.extended_eq (h : shell.Accounts taken parts rest) (line : String) :
    shell.extended line = "\n".intercalate (rest ++ [line]) := by
  rw [extended]
  by_cases hrest : rest = []
  · rw [if_pos (h.pending_eq_empty_iff.2 hrest), hrest]
    simp
  · rw [if_neg (mt h.pending_eq_empty_iff.1 hrest), h.pending,
      String.intercalate_append_of_ne_nil hrest (by simp), String.intercalate_singleton]

/-- Each line is accounted for. -/
theorem Accounts.handle (h : shell.Accounts taken parts rest) (line : String) :
    ∃ parts' rest', (shell.handle line).2.Accounts (taken ++ programLines [line]) parts' rest' ∧
      parts'.map "\n".intercalate =
        parts.map "\n".intercalate ++ (shell.handed? line).toList := by
  have hsteps := shell.steps_handle line
  revert hsteps
  generalize shell.handed? line = handed, (shell.handle line).2 = shell'
  rintro (hcommand | ⟨hsource, hcomplete⟩ | ⟨hsource, hcomplete⟩)
  · refine ⟨parts, rest, ?_, by simp⟩
    simpa [programLines, hcommand] using h
  all_goals
    have htaken : programLines [line] = [Text.strip line] := by simp [programLines, hsource]
    have hline : Text.strip line ≠ "" := by
      cases hparse : Command.parse line with
      | source text =>
        obtain ⟨rfl, hne⟩ := Command.eq_strip_of_parse hparse
        exact hne
      | _ => rw [hparse] at hsource; cases hsource
    rw [h.extended_eq] at hcomplete
    -- fewer lines than these were pending before
    have hleast : ∀ n < (rest ++ [Text.strip line]).length,
        isComplete ("\n".intercalate ((rest ++ [Text.strip line]).take n)) = false := by
      intro n hn
      have hle : n ≤ rest.length := by simpa [Nat.lt_succ_iff] using hn
      rw [List.take_append_of_le_length hle]
      exact h.incomplete n hle
    rw [htaken, h.extended_eq]
  · refine ⟨parts, rest ++ [Text.strip line],
      ⟨?_, h.completes, fun n hn => ?_, ?_, rfl, ?_⟩, by simp⟩
    · rw [h.lines, List.append_assoc]
    · rcases Nat.lt_or_eq_of_le hn with hn | rfl
      · exact hleast n hn
      · rwa [List.take_length]
    · simpa [or_imp, forall_and, hline] using h.nonempty
    · simp [awaiting]
  · refine ⟨parts ++ [rest ++ [Text.strip line]], [],
      ⟨?_, ?_, ?_, by simp, rfl, by simp [finished]⟩, by simp⟩
    · simp [h.lines]
    · intro part hpart
      rcases List.mem_append.1 hpart with hpart | hpart
      · exact h.completes part hpart
      · rw [List.mem_singleton.1 hpart]
        exact ⟨hcomplete, hleast⟩
    · intro n hn
      rw [List.take_nil]
      exact isComplete_empty

/-- All lines are accounted for. -/
theorem Accounts.after (h : shell.Accounts taken parts rest) (lines : List String) :
    ∃ parts' rest', (shell.after lines).Accounts (taken ++ programLines lines) parts' rest' ∧
      parts'.map "\n".intercalate = parts.map "\n".intercalate ++ shell.handed lines := by
  induction lines generalizing shell taken parts rest with
  | nil => exact ⟨parts, rest, by simpa [programLines, Shell.after] using h, by simp [handed]⟩
  | cons line lines ih =>
    obtain ⟨parts₁, rest₁, h₁, hhanded₁⟩ := h.handle line
    obtain ⟨parts₂, rest₂, h₂, hhanded₂⟩ := ih h₁
    refine ⟨parts₂, rest₂, ?_, ?_⟩
    · have htaken : programLines (line :: lines) = programLines [line] ++ programLines lines := by
        rw [programLines, programLines, programLines, ← List.map_append, ← List.filter_append]
        rfl
      rw [htaken, ← List.append_assoc]
      exact h₂
    · rw [hhanded₂, hhanded₁, List.append_assoc, Shell.handed]

/-- The session has run the texts that were handed over, one after the other, and nothing else. -/
theorem session_after (shell : Shell) (lines : List String) :
    (shell.after lines).session =
      (shell.handed lines).foldl (fun session source => (session.add source).2) shell.session := by
  induction lines generalizing shell with
  | nil => rfl
  | cons line lines ih =>
    rw [handed, List.foldl_append, Shell.after, List.foldl_cons, ← Shell.after, ih]
    congr 1
    have hsteps := shell.steps_handle line
    revert hsteps
    generalize shell.handed? line = handed, (shell.handle line).2 = shell'
    rintro (_ | _ | _) <;> rfl

/-- White space at the ends apart, a line is as it was. -/
theorem not_mem_strip {line : String} {c : Char} (h : c ∉ line.toList) :
    c ∉ (Text.strip line).toList := by
  rw [Text.strip, String.toList_ofList, Text.stripBy]
  intro hmem
  rw [List.mem_reverse] at hmem
  have hmem := List.mem_reverse.1 ((List.dropWhile_sublist _).mem hmem)
  exact h ((List.dropWhile_sublist _).mem hmem)

/-- What is not complete can be cut into tokens, and the last of them is no semicolon. -/
theorem isComplete_eq_false_iff {source : String} :
    isComplete source = false ↔ ∃ ts, tokenize 0 source = .ok ts ∧
      ts.dropLast.getLast?.map Token.kind ≠ some (.symbol .semicolon) := by
  rw [isComplete]
  cases tokenize 0 source with
  | error e => simp
  | ok ts => simp

end

end Shell

/-- Whatever lines a shell is given from its start on, the texts that it handed to its session,
followed by the pending text if there is one, are the lines of programs among them, one below the
other. More than that, the texts and the pending one consist of these lines, part by part, and each
text was handed over with the first line that made it complete. If no line holds a line feed, these
are the lines of the text. What is pending can be cut into tokens, the last of which is no
semicolon, and the prompt asks for more lines exactly if something is pending. The session has run
the texts that were handed over and nothing else, and the next line does one of the things that
`Shell.Steps` lists: a failing text leaves as little behind as any other. -/
theorem shell_input_conserved (limits : Limits) (colour : Bool) (lines : List String) :
    let shell := (Shell.start limits colour).after lines
    let handed := (Shell.start limits colour).handed lines
    "\n".intercalate (handed ++ if shell.pending = "" then [] else [shell.pending]) =
      "\n".intercalate (programLines lines) ∧
    (∃ (parts : List (List String)) (rest : List String),
      programLines lines = parts.flatten ++ rest ∧
      handed = parts.map "\n".intercalate ∧ shell.pending = "\n".intercalate rest ∧
      ∀ part ∈ parts, Shell.isComplete ("\n".intercalate part) = true ∧
        ∀ n < part.length, Shell.isComplete ("\n".intercalate (part.take n)) = false) ∧
    ((∀ line ∈ lines, '\n' ∉ line.toList) → ∀ source ∈ handed,
      ∀ n < (Text.lines source).length,
        Shell.isComplete ("\n".intercalate ((Text.lines source).take n)) = false) ∧
    (∃ ts, tokenize 0 shell.pending = .ok ts ∧
      ts.dropLast.getLast?.map Token.kind ≠ some (.symbol .semicolon)) ∧
    (shell.prompt = .secondary ↔ shell.pending ≠ "") ∧
    shell.session =
      handed.foldl (fun session source => (session.add source).2) (.start limits) ∧
    ∀ line, shell.Steps line (shell.handed? line) (shell.handle line).2 := by
  intro shell handed
  obtain ⟨parts, rest, h, hhanded⟩ := (Shell.accounts_start limits colour).after lines
  rw [List.nil_append] at h
  replace hhanded : handed = parts.map "\n".intercalate := hhanded.symm
  have hparts : ∀ part ∈ parts, part ≠ [] := fun part hpart => (h.completes part hpart).ne_nil
  refine ⟨?_, ⟨parts, rest, h.lines, hhanded, h.pending, fun part hpart => ?_⟩, ?_, ?_, ?_,
    Shell.session_after _ lines, fun line => shell.steps_handle line⟩
  · rw [h.lines, hhanded]
    by_cases hrest : rest = []
    · rw [if_pos (h.pending_eq_empty_iff.2 hrest), hrest]
      simpa using intercalate_flatten hparts
    · rw [if_neg (mt h.pending_eq_empty_iff.1 hrest), h.pending]
      have hall : ∀ part ∈ parts ++ [rest], part ≠ [] := by
        simpa [or_imp, forall_and, hrest] using hparts
      simpa using intercalate_flatten hall
  · exact ⟨(h.completes part hpart).complete, (h.completes part hpart).least⟩
  · intro hlines source hsource
    rw [hhanded] at hsource
    obtain ⟨part, hpart, rfl⟩ := List.mem_map.1 hsource
    rw [Text.lines_intercalate (hparts part hpart) fun line hline => ?_]
    · exact (h.completes part hpart).least
    -- the line is one of those that the shell was given, without white space at its ends
    have hmem : line ∈ programLines lines := by
      rw [h.lines]
      exact List.mem_append_left _ (List.mem_flatten_of_mem hpart hline)
    obtain ⟨given, hgiven, rfl⟩ := List.mem_map.1 hmem
    exact Shell.not_mem_strip (hlines given (List.mem_filter.1 hgiven).1)
  · rw [← Shell.isComplete_eq_false_iff, h.pending]
    simpa using h.incomplete rest.length (Nat.le_refl _)
  · rw [h.prompt, ne_eq, ne_eq, h.pending_eq_empty_iff]

end CallByNeed
