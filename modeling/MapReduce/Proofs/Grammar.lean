import MapReduce.Proofs.Session

/-!
# The grammar of command lines

What a line means depends on its words alone. The name of a task with two paths is a command, `done`
by itself is one, and there is no other. A path can be sent if it is a word, so a task that can be
sent is read back from its line, and one that has been read can be sent again.
-/

namespace MapReduce

/-! ### Words -/

namespace Text

/-- Cut at its white space, a text falls into these words. -/
inductive Tokens : List Char → List (List Char) → Prop where
  | empty : Tokens [] []
  | blank {c : Char} {cs : List Char} {ws : List (List Char)} (hc : isBlank c = true)
      (rest : Tokens cs ws) : Tokens (c :: cs) ws
  /-- A word with white space behind it. -/
  | word {w : List Char} {c : Char} {cs : List Char} {ws : List (List Char)} (hne : w ≠ [])
      (hw : ∀ x ∈ w, isBlank x = false) (hc : isBlank c = true) (rest : Tokens cs ws) :
      Tokens (w ++ c :: cs) (w :: ws)
  | last {w : List Char} (hne : w ≠ []) (hw : ∀ x ∈ w, isBlank x = false) : Tokens w [w]

theorem Tokens.words_eq {cs : List Char} {ws : List (List Char)} (h : Tokens cs ws) :
    words cs = ws := by
  induction h with
  | empty => rfl
  | @blank c cs ws hc _ ih =>
      have hcut : words ([] ++ c :: cs) = words [] ++ words cs := words_append_blank hc [] cs
      rwa [List.nil_append, words_nil, List.nil_append, ih] at hcut
  | word hne hw hc _ ih => rw [words_append_blank hc, words_of_forall hne hw, ih, List.singleton_append]
  | last hne hw => exact words_of_forall hne hw

theorem tokens_words (cs : List Char) : Tokens cs (words cs) := by
  induction hn : cs.length using Nat.strongRecOn generalizing cs with
  | _ n ih =>
      subst hn
      rcases forall_or_exists_first isBlank cs with hcs | ⟨a, c, b, rfl, hc, ha⟩
      · by_cases hne : cs = []
        · rw [hne]
          exact .empty
        · rw [words_of_forall hne hcs]
          exact .last hne hcs
      · have hrest : Tokens b (words b) := ih b.length (by simp; omega) b rfl
        rw [words_append_blank hc]
        by_cases hne : a = []
        · rw [hne]
          exact .blank hc hrest
        · rw [words_of_forall hne ha]
          exact .word hne ha hc hrest

/-- Every text falls into words in one way. -/
theorem tokens_iff {cs : List Char} {ws : List (List Char)} : Tokens cs ws ↔ ws = words cs :=
  ⟨fun h => h.words_eq.symm, fun h => h ▸ tokens_words cs⟩

end Text

/-- The path is a text, and all of it is one word. -/
def Path.IsWord (path : Path) : Prop :=
  ∃ cs, path = Utf8.encode cs ∧ cs ≠ [] ∧ ∀ c ∈ cs, Text.isBlank c = false

namespace Command

/-! ### What words spell -/

/-- The command that words spell. -/
inductive Spells : List (List Char) → Command → Prop where
  | run (kind : TaskKind) (input output : List Char) :
      Spells [kind.name.toList, input, output]
        (.run ⟨kind, Utf8.encode input, Utf8.encode output⟩)
  | done : Spells ["done".toList] .done

def names : List (List Char) :=
  [TaskKind.map.name.toList, TaskKind.reduce.name.toList, "done".toList]

/-- Why the words of a line spell no command. -/
inductive Misspells (line : String) : List (List Char) → CommandError → Prop where
  | empty : Misspells line [] .empty
  | run (kind : TaskKind) {arguments : List (List Char)} (hcount : arguments.length ≠ 2) :
      Misspells line (kind.name.toList :: arguments) (.wrongArity kind.name 2 arguments.length)
  | done {arguments : List (List Char)} (hcount : arguments.length ≠ 0) :
      Misspells line ("done".toList :: arguments) (.wrongArity "done" 0 arguments.length)
  | unknown {name : List Char} {arguments : List (List Char)} (hname : name ∉ names) :
      Misspells line (name :: arguments) (.unknown line)

variable {line : String} {command : Command} {e : CommandError} {ws : List (List Char)}

theorem parse_of_spells (h : Spells (Text.words line.toList) command) :
    parse line = .ok command := by
  rw [parse]
  generalize Text.words line.toList = ws at h
  cases h with
  | run kind input output => cases kind <;> rfl
  | done => rfl

theorem ofArguments_of_length {kind : TaskKind} {arguments : List (List Char)}
    (h : arguments.length ≠ 2) :
    ofArguments kind arguments = .error (.wrongArity kind.name 2 arguments.length) := by
  match arguments with
  | [] => rfl
  | [_] => rfl
  | [_, _] => exact absurd rfl h
  | _ :: _ :: _ :: _ => rfl

theorem parse_of_misspells (h : Misspells line (Text.words line.toList) e) :
    parse line = .error e := by
  rw [parse]
  generalize Text.words line.toList = ws at h
  cases h with
  | empty => rfl
  | run kind hcount => cases kind <;> exact ofArguments_of_length hcount
  | @done arguments hcount =>
      cases arguments with
      | nil => exact absurd rfl hcount
      | cons argument arguments => rfl
  | @unknown name arguments hname =>
      have hnone : name ≠ ['m', 'a', 'p'] ∧ name ≠ ['r', 'e', 'd', 'u', 'c', 'e']
          ∧ name ≠ ['d', 'o', 'n', 'e'] := by
        refine ⟨?_, ?_, ?_⟩ <;> rintro rfl <;> exact hname (by decide)
      simp only [hnone, if_false]

/-- Words that spell no command do so in one of these ways. -/
theorem spells_or_misspells (line : String) (ws : List (List Char)) :
    (∃ command, Spells ws command) ∨ ∃ e, Misspells line ws e := by
  match ws with
  | [] => exact .inr ⟨_, .empty⟩
  | name :: arguments =>
      have htask : ∀ kind : TaskKind, (∃ command, Spells (kind.name.toList :: arguments) command)
          ∨ ∃ e, Misspells line (kind.name.toList :: arguments) e := by
        intro kind
        match arguments with
        | [input, output] => exact .inl ⟨_, .run kind input output⟩
        | [] => exact .inr ⟨_, .run kind (by simp)⟩
        | [_] => exact .inr ⟨_, .run kind (by simp)⟩
        | _ :: _ :: _ :: _ => exact .inr ⟨_, .run kind (by simp)⟩
      by_cases hname : name ∈ names
      · simp only [names, List.mem_cons, List.not_mem_nil, or_false] at hname
        rcases hname with rfl | rfl | rfl
        · exact htask .map
        · exact htask .reduce
        · cases arguments with
          | nil => exact .inl ⟨_, .done⟩
          | cons argument arguments => exact .inr ⟨_, .done (by simp)⟩
      · exact .inr ⟨_, .unknown hname⟩

theorem parse_eq_ok_iff : parse line = .ok command ↔ Spells (Text.words line.toList) command := by
  refine ⟨?_, parse_of_spells⟩
  intro hparse
  rcases spells_or_misspells line (Text.words line.toList) with ⟨command', h⟩ | ⟨e, h⟩
  · obtain rfl := Except.ok.inj (hparse.symm.trans (parse_of_spells h))
    exact h
  · exact nomatch hparse.symm.trans (parse_of_misspells h)

theorem parse_eq_error_iff :
    parse line = .error e ↔ Misspells line (Text.words line.toList) e := by
  refine ⟨?_, parse_of_misspells⟩
  intro hparse
  rcases spells_or_misspells line (Text.words line.toList) with ⟨command, h⟩ | ⟨e', h⟩
  · exact nomatch hparse.symm.trans (parse_of_spells h)
  · obtain rfl := Except.error.inj (hparse.symm.trans (parse_of_misspells h))
    exact h

/-! ### There and back -/

/-- What arrives of bytes that are written to a worker, line by line. -/
def heard (bs : Bytes) : List (Except Utf8.Fault (Except CommandError Command)) :=
  (Line.split Bytes.newline bs).map fun line => (decodeLine line).map parse

theorem heard_line {task : Task} (hinput : isSendable task.input = true)
    (houtput : isSendable task.output = true) :
    heard (Bytes.ofString (Command.run task).line).terminate = [.ok (.ok (.run task))] := by
  have hnewline : Bytes.newline ∉ Bytes.ofString (Command.run task).line := by
    rw [Bytes.ofString, Bytes.newline_mem_encode_iff]
    exact notMem_line hinput houtput (Or.inl rfl)
  rw [heard, Bytes.terminate, Line.split_append_newline hnewline, Line.split_nil, List.map_singleton,
    TaskRunner.decodeLine_command hinput houtput, Except.map, parse_line hinput houtput]

/-- The paths of a command that was read are words. -/
theorem isSendable_of_parse {task : Task} (h : parse line = .ok (.run task)) :
    isSendable task.input = true ∧ isSendable task.output = true := by
  have hspells := parse_eq_ok_iff.mp h
  generalize hws : Text.words line.toList = ws at hspells
  cases hspells with
  | run kind input output =>
      have hword : ∀ w ∈ [input, output], isSendable (Utf8.encode w) = true := by
        intro w hw
        have hmem : w ∈ Text.words line.toList := hws ▸ List.mem_cons_of_mem _ hw
        exact isSendable_iff.mpr
          ⟨w, rfl, Text.ne_nil_of_mem_words hmem, fun c hc => Text.isBlank_of_mem_words hmem hc⟩
      exact ⟨hword input (by simp), hword output (by simp)⟩

theorem ofTask_line_of_parse (h : parse line = .ok command) :
    (∀ task, command = .run task → ofTask task = .ok command) ∧ parse command.line = .ok command := by
  cases command with
  | done => exact ⟨by simp, by decide +kernel⟩
  | run task =>
      obtain ⟨hinput, houtput⟩ := isSendable_of_parse h
      refine ⟨?_, parse_line hinput houtput⟩
      rintro task' ⟨⟩
      exact ofTask_eq_ok_iff.mpr ⟨hinput, houtput, rfl⟩

/-- **Grammar.** A task can be sent if its paths are words, and its line is then read back as that
task. A line is read as the command that its words spell, which can be sent again; if they spell
none, the error tells in which way. -/
theorem parse_grammar (task : Task) (line : String) :
    ((∃ command, ofTask task = .ok command) ↔ task.input.IsWord ∧ task.output.IsWord)
      ∧ (∀ command, ofTask task = .ok command →
          command = .run task
            ∧ heard (Bytes.ofString command.line).terminate = [.ok (.ok command)])
      ∧ ∃ ws, (∀ ws', Text.Tokens line.toList ws' ↔ ws' = ws)
          ∧ (∀ command, parse line = .ok command ↔ Spells ws command)
          ∧ (∀ command, parse line = .ok command →
              (∀ task, command = .run task → ofTask task = .ok command)
                ∧ parse command.line = .ok command)
          ∧ ∀ e, parse line = .error e ↔ Misspells line ws e := by
  refine ⟨?_, ?_, Text.words line.toList, fun _ => Text.tokens_iff, fun _ => parse_eq_ok_iff,
    fun _ => ofTask_line_of_parse, fun _ => parse_eq_error_iff⟩
  · simp only [ofTask_eq_ok_iff, isSendable_iff, exists_and_left, exists_eq, and_true]
    rfl
  · intro command h
    obtain ⟨hinput, houtput, rfl⟩ := ofTask_eq_ok_iff.mp h
    exact ⟨rfl, heard_line hinput houtput⟩

/-- A path that is the name of a task, and one with a character of two bytes. -/
def likeNames : Task :=
  ⟨.map, Bytes.ofString "map", Bytes.ofString "/tmp/ü"⟩

theorem parse_grammar_likeNames :
    (Command.run likeNames).line = "map map /tmp/ü"
      ∧ heard (Bytes.ofString "map map /tmp/ü").terminate = [.ok (.ok (.run likeNames))]
      ∧ parse "\u3000map\tmap\u2003/tmp/ü\r" = .ok (.run likeNames)
      ∧ ofTask likeNames = .ok (.run likeNames) := by
  have hline : (Command.run likeNames).line = "map map /tmp/ü" := by decide +kernel
  have hparse : parse "\u3000map\tmap\u2003/tmp/ü\r" = .ok (.run likeNames) := by decide +kernel
  obtain ⟨-, hsent, ws, -, -, hagain, -⟩ :=
    parse_grammar likeNames "\u3000map\tmap\u2003/tmp/ü\r"
  have htask := (hagain (.run likeNames) hparse).1 likeNames rfl
  exact ⟨hline, hline ▸ (hsent (.run likeNames) htask).2, hparse, htask⟩

end Command

end MapReduce
