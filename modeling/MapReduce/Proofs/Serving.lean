import MapReduce.Proofs.Session

/-!
# One answer to each command

A worker answers the lines of its input one after the other, up to the line that tells it that it is
done, a line that is no text, or an answer that cannot be written. Each answer is a line of its own
whatever the error it reports, so a reader that counts lines knows which command an answer is for.
-/

namespace MapReduce

/-- What a command line asks for, if it is not the end of the session: a task, or nothing that can be
understood. -/
abbrev Request := Except CommandError Task

inductive Reading where
  | illegible (fault : Utf8.Fault)
  | done
  | request (request : Request)

namespace Reading

def ofLine (line : Line UInt8) : Reading :=
  match decodeLine line with
  | .error fault => .illegible fault
  | .ok text =>
    match Command.parse text with
    | .ok .done => .done
    | .ok (.run task) => .request (.ok task)
    | .error e => .request (.error e)

/-- How a session ends at a line that is not answered, or at the end of the input. -/
def ending : Option Reading → Except SessionError Unit
  | some (.illegible fault) => .error (.notUtf8 fault)
  | _ => .ok ()

end Reading

namespace Sink

variable {out out' : Sink}

/-- Writes lines up to the first that cannot be written. -/
def writeLines (out : Sink) : List String → Except IoError Unit × Sink
  | [] => (.ok (), out)
  | line :: rest =>
    match out.writeLine line with
    | (.ok _, out) => out.writeLines rest
    | failed => failed

/-- Writing lines fails at one of them. -/
theorem exists_of_writeLines_eq_error {lines : List String} {e : IoError}
    (h : out.writeLines lines = (.error e, out')) :
    ∃ before line after mid, lines = before ++ line :: after
      ∧ out.writeLines before = (.ok (), mid) ∧ mid.writeLine line = (.error e, out') := by
  induction lines generalizing out with
  | nil => simp [writeLines] at h
  | cons line lines ih =>
      rw [writeLines] at h
      rcases hline : out.writeLine line with ⟨e' | _, next⟩
      · rw [hline] at h
        exact ⟨[], line, lines, out, rfl, rfl, hline.trans h⟩
      · rw [hline] at h
        obtain ⟨before, line', after, mid, rfl, hbefore, hfailed⟩ := ih h
        refine ⟨line :: before, line', after, mid, rfl, ?_, hfailed⟩
        rw [writeLines, hline]
        exact hbefore

/-- Some of the bytes are taken from the front, and all of them if the write succeeds. -/
theorem contents_write (out : Sink) (bs : Bytes) :
    ∃ part, part <+: bs ∧ (out.write bs).2.contents = out.contents ++ part
      ∧ ((out.write bs).1 = .ok () → part = bs) := by
  unfold write
  cases out.room with
  | none => exact ⟨bs, List.prefix_rfl, by simp [contents], fun _ => rfl⟩
  | some room =>
      by_cases hroom : bs.length ≤ room
      · simp only [hroom, if_true]
        exact ⟨bs, List.prefix_rfl, by simp [contents], fun _ => rfl⟩
      · simp only [hroom, if_false]
        exact ⟨bs.take room, List.take_prefix _ _, by simp [contents], by simp⟩

def text (lines : List String) : Bytes :=
  lines.flatMap fun line => (Bytes.ofString line).terminate

theorem contents_writeLine (out : Sink) (line : String) :
    ∃ part, part <+: (Bytes.ofString line).terminate
      ∧ (out.writeLine line).2.contents = out.contents ++ part
      ∧ ((out.writeLine line).1 = .ok () → part = (Bytes.ofString line).terminate) := by
  obtain ⟨part, hpart, hcontents, hall⟩ := out.contents_write (Bytes.ofString line).terminate
  unfold writeLine
  rcases hwrite : out.write (Bytes.ofString line).terminate with ⟨e | _, out'⟩
  · rw [hwrite] at hcontents
    exact ⟨part, hpart, hcontents, by simp⟩
  · rw [hwrite] at hcontents hall
    exact ⟨part, hpart, hcontents, fun _ => hall rfl⟩

theorem contents_writeLines {lines : List String} (h : out.writeLines lines = (.ok (), out')) :
    out'.contents = out.contents ++ text lines := by
  induction lines generalizing out with
  | nil =>
      obtain rfl : out = out' := by simpa [writeLines] using h
      simp [text]
  | cons line lines ih =>
      obtain ⟨part, -, hcontents, hall⟩ := out.contents_writeLine line
      rw [writeLines] at h
      rcases hline : out.writeLine line with ⟨e | _, next⟩
      · simp [hline] at h
      · rw [hline] at h hcontents hall
        rw [ih h, hcontents, hall rfl]
        simp [text]

end Sink

/-! ### Replies -/

namespace Status

theorem notMem_line_failure (message : String) {c : Char} (hc : c = '\r' ∨ c = '\n') :
    c ∉ (failure message).line.toList := by
  rw [failure, line, String.toList_append, List.mem_append, not_or]
  refine ⟨?_, notMem_oneLine message hc⟩
  rcases hc with rfl | rfl <;> decide

theorem line_failure_ne (message : String) : (failure message).line ≠ Status.ok.line := by
  intro h
  have hchars : ("error: " ++ oneLine message).toList = "ok".toList := congrArg String.toList h
  rw [String.toList_append] at hchars
  have hhead : some 'e' = some 'o' := congrArg List.head? hchars
  exact absurd hhead (by decide)

end Status

namespace TaskRunner

variable (runner : TaskRunner)

def respond (request : Request) (t : FileTree) : Status × FileTree :=
  match request with
  | .error e => (.failure e.message, t)
  | .ok task => (.ofResult task.kind (runner.run task t).1, (runner.run task t).2)

/-- The files that are there after requests have been met. -/
def left (requests : List Request) (t : FileTree) : FileTree :=
  requests.foldl (fun t request => (runner.respond request t).2) t

def replies : List Request → FileTree → List String
  | [], _ => []
  | request :: rest, t =>
    (runner.respond request t).1.line :: replies rest (runner.respond request t).2

/-- Whether a request is met. -/
def Meets (request : Request) (t : FileTree) : Prop :=
  ∃ task n, request = .ok task ∧ (runner.run task t).1 = .ok n

variable {runner}

theorem respond_of_meets {request : Request} {t : FileTree} (h : runner.Meets request t) :
    (runner.respond request t).1 = .ok := by
  obtain ⟨task, n, rfl, hrun⟩ := h
  rw [respond, hrun]
  rfl

theorem exists_failure_of_not_meets {request : Request} {t : FileTree}
    (h : ¬ runner.Meets request t) :
    ∃ message, (runner.respond request t).1 = .failure message := by
  cases request with
  | error e => exact ⟨e.message, rfl⟩
  | ok task =>
      cases hrun : (runner.run task t).1 with
      | ok n => exact absurd ⟨task, n, rfl, hrun⟩ h
      | error e =>
          refine ⟨e.account task.kind, ?_⟩
          rw [respond, hrun]
          exact e.status_eq task.kind

theorem length_replies (requests : List Request) (t : FileTree) :
    (runner.replies requests t).length = requests.length := by
  induction requests generalizing t with
  | nil => rfl
  | cons request rest ih => rw [replies, List.length_cons, ih, List.length_cons]

theorem take_replies (j : Nat) (requests : List Request) (t : FileTree) :
    (runner.replies requests t).take j = runner.replies (requests.take j) t := by
  induction requests generalizing j t with
  | nil => simp [replies]
  | cons request rest ih =>
      cases j with
      | zero => rfl
      | succ j => rw [replies, List.take_succ_cons, ih, List.take_succ_cons, replies]

theorem left_take_succ {requests : List Request} {j : Nat} {request : Request}
    (h : requests[j]? = some request) (t : FileTree) :
    runner.left (requests.take (j + 1)) t
      = (runner.respond request (runner.left (requests.take j) t)).2 := by
  rw [List.take_add_one, h, left, List.foldl_append]
  rfl

theorem exists_of_mem_replies {requests : List Request} {t : FileTree} {line : String}
    (h : line ∈ runner.replies requests t) :
    ∃ request t', line = (runner.respond request t').1.line := by
  induction requests generalizing t with
  | nil => simp [replies] at h
  | cons request rest ih =>
      rcases List.mem_cons.mp h with rfl | hrest
      · exact ⟨request, t, rfl⟩
      · exact ih hrest

theorem notMem_of_mem_replies {requests : List Request} {t : FileTree} {line : String}
    (h : line ∈ runner.replies requests t) {c : Char} (hc : c = '\r' ∨ c = '\n') :
    c ∉ line.toList := by
  obtain ⟨request, t', rfl⟩ := exists_of_mem_replies h
  by_cases hmeets : runner.Meets request t'
  · rw [respond_of_meets hmeets]
    rcases hc with rfl | rfl <;> decide
  · obtain ⟨message, hmessage⟩ := exists_failure_of_not_meets hmeets
    rw [hmessage]
    exact Status.notMem_line_failure message hc

/-- Each reply answers the request in its place, which finds the files that those before it have
left. -/
theorem reply_at {requests : List Request} {t : FileTree} {j : Nat} {request : Request}
    (h : requests[j]? = some request) : (runner.replies requests t)[j]?
      = some (runner.respond request (runner.left (requests.take j) t)).1.line := by
  induction requests generalizing t j with
  | nil => simp at h
  | cons first rest ih =>
      cases j with
      | zero =>
          obtain rfl : first = request := by simpa using h
          rfl
      | succ j =>
          rw [List.getElem?_cons_succ] at h
          rw [replies, List.getElem?_cons_succ, ih h]
          rfl

/-! ### Sessions -/

section Session

variable {line : Line UInt8} {lines : List (Line UInt8)} {requests : List Request}
  {rest : List Reading} {out out' : Sink} {t : FileTree}

theorem answer_of_request (runner : TaskRunner) {request : Request}
    (h : Reading.ofLine line = .request request) :
    ∃ text, decodeLine line = .ok text
      ∧ ∀ t, runner.answer text t
          = (some (runner.respond request t).1, (runner.respond request t).2) := by
  unfold Reading.ofLine at h
  cases htext : decodeLine line with
  | error fault => simp [htext] at h
  | ok text =>
      refine ⟨text, rfl, fun t => ?_⟩
      simp only [htext] at h
      rw [answer]
      cases hcommand : Command.parse text with
      | error e =>
          obtain rfl : .error e = request := by simpa [hcommand] using h
          rfl
      | ok command =>
          cases command with
          | done => simp [hcommand] at h
          | run task =>
              obtain rfl : .ok task = request := by simpa [hcommand] using h
              rw [respond]
              dsimp only
              rcases runner.run task t with ⟨_ | _, _⟩ <;> rfl

/-- One request: its reply is written before the next line is looked at. -/
theorem serveLines_request {request : Request} (h : Reading.ofLine line = .request request) :
    runner.serveLines out t (line :: lines)
      = match out.writeLine (runner.respond request t).1.line with
        | (.error e, out) => (.error (.write e), out, (runner.respond request t).2)
        | (.ok _, out) => runner.serveLines out (runner.respond request t).2 lines := by
  obtain ⟨text, htext, hanswer⟩ := answer_of_request runner h
  rcases hwrite : out.writeLine (runner.respond request t).1.line with ⟨e | _, out'⟩
  all_goals simp only [serveLines, htext, hanswer, hwrite]

theorem serveLines_over (h : ∀ request, (lines.map Reading.ofLine).head? ≠ some (.request request)) :
    runner.serveLines out t lines = (Reading.ending (lines.map Reading.ofLine).head?, out, t) := by
  cases lines with
  | nil => rfl
  | cons line lines =>
      simp only [List.map_cons, List.head?_cons, ne_eq, Option.some.injEq] at h ⊢
      unfold Reading.ofLine at h ⊢
      rw [serveLines]
      cases htext : decodeLine line with
      | error fault => rfl
      | ok text =>
          simp only [htext] at h ⊢
          rw [answer]
          cases hcommand : Command.parse text with
          | error e => exact absurd (by rw [hcommand]) (h (.error e))
          | ok command =>
              cases command with
              | done => rfl
              | run task => exact absurd (by rw [hcommand]) (h (.ok task))

theorem map_drop_readings (hlines : lines.map Reading.ofLine = requests.map .request ++ rest) :
    (lines.drop requests.length).map Reading.ofLine = rest := by
  rw [List.map_drop, hlines]
  exact List.drop_left' (List.length_map _)

/-- Requests that are all answered. -/
theorem serveLines_answered
    (hlines : lines.map Reading.ofLine = requests.map .request ++ rest)
    (hwritten : out.writeLines (runner.replies requests t) = (.ok (), out')) :
    runner.serveLines out t lines
      = runner.serveLines out' (runner.left requests t) (lines.drop requests.length) := by
  induction requests generalizing lines out t with
  | nil =>
      obtain rfl : out = out' := by simpa [replies, Sink.writeLines] using hwritten
      rfl
  | cons request requests ih =>
      obtain ⟨line, lines, rfl, hline, hlines⟩ := List.map_eq_cons_iff.mp hlines
      rw [replies, Sink.writeLines] at hwritten
      rw [serveLines_request hline]
      rcases hreply : out.writeLine (runner.respond request t).1.line with ⟨e | _, next⟩
      · simp [hreply] at hwritten
      · rw [hreply] at hwritten
        exact ih hlines hwritten

/-- What comes after the first line that is not answered makes no difference. -/
theorem serveLines_congr {lines' : List (Line UInt8)} {rest' : List Reading}
    (hlines : lines.map Reading.ofLine = requests.map .request ++ rest)
    (hlines' : lines'.map Reading.ofLine = requests.map .request ++ rest')
    (hrest : rest'.head? = rest.head?) (hover : ∀ request, rest.head? ≠ some (.request request)) :
    runner.serveLines out t lines' = runner.serveLines out t lines := by
  induction requests generalizing lines lines' out t with
  | nil =>
      rw [List.map_nil, List.nil_append] at hlines hlines'
      rw [serveLines_over (by rwa [hlines', hrest]), serveLines_over (by rwa [hlines]), hlines, hlines',
        hrest]
  | cons request requests ih =>
      obtain ⟨line, lines, rfl, hline, hlines⟩ := List.map_eq_cons_iff.mp hlines
      obtain ⟨line', lines', rfl, hline', hlines'⟩ := List.map_eq_cons_iff.mp hlines'
      rw [serveLines_request hline, serveLines_request hline']
      rcases out.writeLine (runner.respond request t).1.line with ⟨e | _, next⟩
      · rfl
      · exact ih hlines hlines'

end Session

/-- How many lines of a session are answered, with which replies, and what ends it: `rest` is what
the input holds from the first line on that is not answered. -/
structure Served (runner : TaskRunner) (input : Bytes) (out : Sink) (t : FileTree)
    (requests : List Request) (rest : List Reading) : Prop where
  readings : (Line.split Bytes.newline input).map Reading.ofLine = requests.map .request ++ rest
  finished : ∀ request, rest.head? ≠ some (.request request)
  /-- There is one reply to each request. It says `ok` just if the request is met. -/
  replies : ∀ (j : Nat) (request : Request), requests[j]? = some request →
    ∃ reply, (runner.replies requests t)[j]? = some reply
      ∧ (reply = "ok" ↔ runner.Meets request (runner.left (requests.take j) t))
      ∧ (reply = "ok" ∨ ∃ message, reply = "error: " ++ message)
  /-- Cut at its newlines, what is written gives the replies again. -/
  lines : (runner.replies requests t).length = requests.length
    ∧ Bytes.lines (Sink.text (runner.replies requests t))
        = (runner.replies requests t).map Bytes.ofString
    ∧ ∀ reply ∈ runner.replies requests t, '\r' ∉ reply.toList ∧ '\n' ∉ reply.toList
  written : ∀ out', out.writeLines (runner.replies requests t) = (.ok (), out') →
    runner.serve input out t = (Reading.ending rest.head?, out', runner.left requests t)
      ∧ out'.contents = out.contents ++ Sink.text (runner.replies requests t)
  /-- If a reply cannot be written, its request is the last that is looked at. -/
  unwritten : ∀ e out', out.writeLines (runner.replies requests t) = (.error e, out') →
    ∃ (j : Nat) (reply : String) (mid : Sink) (part : Bytes),
      (runner.replies requests t)[j]? = some reply
        ∧ out.writeLines ((runner.replies requests t).take j) = (.ok (), mid)
        ∧ mid.writeLine reply = (.error e, out')
        ∧ runner.serve input out t = (.error (.write e), out', runner.left (requests.take (j + 1)) t)
        ∧ part <+: (Bytes.ofString reply).terminate
        ∧ out'.contents
            = out.contents ++ Sink.text ((runner.replies requests t).take j) ++ part
  /-- What follows the line that ends the session makes no difference. -/
  settled : ∀ (input' : Bytes) (rest' : List Reading),
    (Line.split Bytes.newline input').map Reading.ofLine = requests.map .request ++ rest' →
    rest'.head? = rest.head? → runner.serve input' out t = runner.serve input out t

/-- Any input is requests up to a line that is not one. -/
theorem exists_requests (readings : List Reading) :
    ∃ (requests : List Request) (rest : List Reading), readings = requests.map .request ++ rest
      ∧ ∀ request, rest.head? ≠ some (.request request) := by
  induction readings with
  | nil => exact ⟨[], [], rfl, by simp⟩
  | cons reading readings ih =>
      cases reading with
      | request request =>
          obtain ⟨requests, rest, rfl, hover⟩ := ih
          exact ⟨request :: requests, rest, rfl, hover⟩
      | illegible fault => exact ⟨[], .illegible fault :: readings, rfl, by simp⟩
      | done => exact ⟨[], .done :: readings, rfl, by simp⟩

theorem reply_served {requests : List Request} {t : FileTree} {j : Nat} {request : Request}
    (h : requests[j]? = some request) :
    ∃ reply, (runner.replies requests t)[j]? = some reply
      ∧ (reply = "ok" ↔ runner.Meets request (runner.left (requests.take j) t))
      ∧ (reply = "ok" ∨ ∃ message, reply = "error: " ++ message) := by
  refine ⟨_, reply_at h, ?_⟩
  by_cases hmeets : runner.Meets request (runner.left (requests.take j) t)
  · rw [respond_of_meets hmeets]
    exact ⟨by simp [hmeets, Status.line], Or.inl rfl⟩
  · obtain ⟨message, hmessage⟩ := exists_failure_of_not_meets hmeets
    rw [hmessage]
    refine ⟨?_, Or.inr ⟨Status.oneLine message, rfl⟩⟩
    constructor
    · intro h
      exact absurd h (Status.line_failure_ne message)
    · intro h
      exact absurd h hmeets

theorem lines_text_replies (requests : List Request) (t : FileTree) :
    Bytes.lines (Sink.text (runner.replies requests t))
      = (runner.replies requests t).map Bytes.ofString := by
  rw [Sink.text, ← List.flatMap_map Bytes.ofString Bytes.terminate]
  refine Bytes.lines_flatMap_terminate fun l hl => ?_
  obtain ⟨reply, hreply, rfl⟩ := List.mem_map.mp hl
  rw [Bytes.ofString, Bytes.newline_mem_encode_iff]
  exact notMem_of_mem_replies hreply (Or.inr rfl)

/-- A session in which the answer to a request cannot be written. -/
theorem serve_unwritten {input : Bytes} {out out' : Sink} {t : FileTree} {requests : List Request}
    {rest : List Reading} {e : IoError}
    (hreadings : (Line.split Bytes.newline input).map Reading.ofLine
      = requests.map .request ++ rest)
    (hfailed : out.writeLines (runner.replies requests t) = (.error e, out')) :
    ∃ (j : Nat) (reply : String) (mid : Sink) (part : Bytes),
      (runner.replies requests t)[j]? = some reply
        ∧ out.writeLines ((runner.replies requests t).take j) = (.ok (), mid)
        ∧ mid.writeLine reply = (.error e, out')
        ∧ runner.serve input out t = (.error (.write e), out', runner.left (requests.take (j + 1)) t)
        ∧ part <+: (Bytes.ofString reply).terminate
        ∧ out'.contents
            = out.contents ++ Sink.text ((runner.replies requests t).take j) ++ part := by
  obtain ⟨before, reply, after, mid, hreplies, hbefore, hreply⟩ :=
    Sink.exists_of_writeLines_eq_error hfailed
  obtain ⟨part, hpart, hcontents, -⟩ := mid.contents_writeLine reply
  have hbefore' : (runner.replies requests t).take before.length = before := by
    rw [hreplies, List.take_left]
  have hj : (runner.replies requests t)[before.length]? = some reply := by
    simp [hreplies]
  refine ⟨before.length, reply, mid, part, hj, by rw [hbefore', hbefore], hreply, ?_, hpart, ?_⟩
  · have hlt : before.length < requests.length := by
      rw [← length_replies requests t, hreplies]
      simp
    have hrequest : requests[before.length]? = some requests[before.length] :=
      List.getElem?_eq_getElem hlt
    have hsplit : requests.map Reading.request
        = (requests.take before.length).map .request
          ++ .request requests[before.length] :: (requests.drop (before.length + 1)).map .request := by
      rw [← List.map_cons, ← List.map_append, ← List.drop_eq_getElem_cons hlt, List.take_append_drop]
    have hanswered : out.writeLines (runner.replies (requests.take before.length) t)
        = (.ok (), mid) := by
      rw [← take_replies, hbefore', hbefore]
    rw [hsplit, List.append_assoc, List.cons_append] at hreadings
    obtain ⟨line, more, hmore, hline, -⟩ := List.map_eq_cons_iff.mp (map_drop_readings hreadings)
    rw [serve, serveLines_answered hreadings hanswered, hmore, serveLines_request hline]
    have hreply' : (runner.respond requests[before.length]
        (runner.left (requests.take before.length) t)).1.line = reply :=
      Option.some.inj ((reply_at hrequest).symm.trans hj)
    simp only [hreply', hreply]
    rw [left_take_succ hrequest]
  · rw [hreply] at hcontents
    rw [hcontents, Sink.contents_writeLines hbefore, hbefore', List.append_assoc]

/-- **One answer to each command.** Whatever the workload does and whatever the input holds, each line
before the first that says `done` or is no text gets one reply, in order, and no line from there on
has any effect. A session fails just if it ends at a line that is no text, or if a reply cannot be
written; no later task is run then. -/
theorem serve_served (runner : TaskRunner) (input : Bytes) (out : Sink) (t : FileTree) :
    ∃ (requests : List Request) (rest : List Reading), Served runner input out t requests rest := by
  obtain ⟨requests, rest, hreadings, hover⟩ :=
    exists_requests ((Line.split Bytes.newline input).map Reading.ofLine)
  refine ⟨requests, rest, ?_⟩
  exact
    { readings := hreadings
      finished := hover
      replies := fun j request hrequest => reply_served hrequest
      lines := ⟨length_replies requests t, lines_text_replies requests t, fun reply hreply =>
        ⟨notMem_of_mem_replies hreply (Or.inl rfl), notMem_of_mem_replies hreply (Or.inr rfl)⟩⟩
      written := by
        intro out' hwritten
        refine ⟨?_, Sink.contents_writeLines hwritten⟩
        have hrest := map_drop_readings hreadings
        rw [serve, serveLines_answered hreadings hwritten, serveLines_over (by rwa [hrest]), hrest]
      unwritten := fun e out' hfailed => serve_unwritten hreadings hfailed
      settled := fun input' rest' hreadings' hrest =>
        serveLines_congr hreadings hreadings' hrest hover }

end TaskRunner

end MapReduce
