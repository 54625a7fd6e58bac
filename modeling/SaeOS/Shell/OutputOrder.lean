import SaeOS.Shell.Machine

/-!
# The order of output

What has arrived at the shell's standard output and in the files of redirections (`sent`), against what the
commands have given to be written there, in their order (`wrote`). The two differ by the text in the shell's
buffer, unless a child takes a copy of that text with it.
-/

namespace SaeOS.Shell

/-- The bytes of a log for one sink, in the log's order. -/
def received (sink : Sink) (log : List (Sink × List UInt8)) : List UInt8 :=
  log.flatMap fun entry => if entry.1 = sink then entry.2 else []

variable {World : Type} {sys : System World} {m m' : Machine World} {command : Command} {sink : Sink}

/-- The text that is still to be sent to a sink. -/
def Machine.pending (m : Machine World) (sink : Sink) : List UInt8 :=
  if m.descriptor = sink then m.stdout.buffer else []

/-- Every sink has got what is written to it, up to the text that is still in the buffer. -/
def InOrder (m : Machine World) : Prop :=
  ∀ sink, received sink m.sent ++ m.pending sink = received sink m.wrote

/-! ## Runs whose children find nothing in the buffer -/

section Orderly

variable (sys)

/-- The child of a command neither flushes what it has got in its buffer nor writes to the shell's standard
output: its redirections and its exec succeed, and its program's descriptor 1 is another one or not written. -/
def keepsQuiet (command : Command) (path : Text) (child : Machine World) : Bool :=
  match redirectChild sys command.redirects child with
  | (_, false) => false
  | (child, true) =>
    match sys.exec child.world path command.words child.shell.environment with
    | (_, .error _) => false
    | (_, .ok bytes) => child.descriptor ≠ .standard ∨ bytes = []

/-- If the command is a program that is forked, then the shell has nothing in its buffer or the child keeps
quiet. -/
def orderly (command : Command) (m : Machine World) : Bool :=
  match command.words.head? with
  | none => true
  | some name =>
    if name ∈ builtins then true
    else
      match findProgram sys name m with
      | none => true
      | some path =>
        match sys.fork m.world with
        | (_, .error _) => true
        | (world, .ok _) => m.stdout.buffer = [] || keepsQuiet sys command path { m with world }

/-- Every command is orderly in the state that it is run in. -/
def orderlyCommands : List Command → Machine World → Bool
  | [], _ => true
  | command :: commands, m =>
    orderly sys command m &&
      ((runNext sys command m).shell.exit.isSome || orderlyCommands commands (runNext sys command m))

def orderlyLine (line : Text) (m : Machine World) : Bool :=
  match parse line m.shell.lookup with
  | .ok commands => orderlyCommands sys commands m
  | .error _ => true

def orderlyLines (before : Machine World → Machine World) : List Text → Machine World → Bool
  | [], _ => true
  | line :: lines, m =>
    orderlyLine sys line (before m) &&
      ((runLine sys line (before m)).shell.exit.isSome ||
        orderlyLines before lines (runLine sys line (before m)))

def orderlyRun (m : Machine World) : Invocation → Bool
  | .command line => orderlyLine sys line m
  | .script lines => orderlyLines sys id lines m
  | .interactive terminal lines _ => orderlyLines sys (prompt sys terminal) lines m

end Orderly

/-! ## Printing -/

theorem received_append (sink : Sink) (log log' : List (Sink × List UInt8)) :
    received sink (log ++ log') = received sink log ++ received sink log' :=
  List.flatMap_append

theorem received_singleton (sink other : Sink) (bytes : List UInt8) :
    received sink [(other, bytes)] = if other = sink then bytes else [] :=
  List.flatMap_singleton ..

theorem InOrder.flush (h : InOrder m) : InOrder m.flush := by
  intro sink
  have hsink := h sink
  unfold Machine.pending at hsink
  show received sink (m.sent ++ [(m.descriptor, m.stdout.buffer)]) ++ (if _ then [] else []) = _
  rw [received_append, received_singleton, ite_self, List.append_nil]
  exact hsink

theorem InOrder.print (h : InOrder m) (text : Text) : InOrder (m.print text) := by
  intro sink
  have hsink := h sink
  have hwritten := m.stdout.writeStr_spec text.asBytes
  unfold Machine.pending at hsink ⊢
  show received sink (m.sent ++ [(m.descriptor, _)]) ++ (if m.descriptor = sink then _ else []) =
    received sink (m.wrote ++ [(m.descriptor, text.asBytes)])
  rw [received_append, received_append, received_singleton, received_singleton, ← hsink]
  split_ifs
  · rw [List.append_assoc, List.append_assoc]
    exact congrArg _ hwritten
  · simp only [List.append_nil]

theorem InOrder.eprintln (h : InOrder m) (message : Text) : InOrder (m.eprintln message) :=
  h.flush

/-- Bytes that go past the buffer are in order if no text is waiting for the same sink. -/
theorem InOrder.write (h : InOrder m) {bytes : List UInt8} (hpending : m.pending sink = [] ∨ bytes = []) :
    InOrder (m.write sink bytes) := by
  intro sink'
  have hsink := h sink'
  show received sink' (m.sent ++ [(sink, bytes)]) ++ m.pending sink' = received sink' (m.wrote ++ [(sink, bytes)])
  rw [received_append, received_append, received_singleton, ← hsink, List.append_assoc, List.append_assoc]
  by_cases hsame : sink = sink'
  · subst hsame
    obtain hpending | hbytes := hpending
    · rw [hpending, List.append_nil, List.nil_append]
    · rw [hbytes, ite_self, List.append_nil, List.nil_append]
  · rw [if_neg hsame, List.append_nil, List.nil_append]

/-- Only the logs and the buffer count. -/
theorem InOrder.congr (h : InOrder m) (hsent : m'.sent = m.sent) (hwrote : m'.wrote = m.wrote)
    (hpending : ∀ sink, m'.pending sink = m.pending sink) : InOrder m' := by
  intro sink
  rw [hsent, hwrote, hpending]
  exact h sink

/-! ## The shell's own commands -/

/-- The shell's process, between two commands. -/
structure Standing (m : Machine World) : Prop where
  descriptor : m.descriptor = .standard
  inOrder : InOrder m

theorem Standing.eprintln (h : Standing m) (message : Text) : Standing (m.eprintln message) :=
  ⟨h.descriptor, h.inOrder.eprintln message⟩

theorem Standing.write (h : Standing m) (n : ℕ) (bytes : List UInt8) : Standing (m.write (.file n) bytes) := by
  have hother : ¬ m.descriptor = .file n := by
    rw [h.descriptor]
    simp
  exact ⟨h.descriptor, h.inOrder.write (.inl (if_neg hother))⟩

theorem Standing.openOutput (h : Standing m) {output : Option Sink} (houtput : ∀ sink ∈ output, ∃ n, sink = .file n)
    (redirects : List Redirect) :
    Standing (openOutput sys output redirects m).1 ∧
      ∀ output', (Shell.openOutput sys output redirects m).2 = .ok output' → ∀ sink ∈ output', ∃ n, sink = .file n := by
  induction redirects generalizing m output with
  | nil =>
    refine ⟨h, fun output' hok => ?_⟩
    obtain rfl := Except.ok.inj hok
    exact houtput
  | cons redirect redirects ih =>
    rw [Shell.openOutput]
    split_ifs
    · exact ih h houtput
    · split
      · refine ih ?_ ?_
        · exact ⟨h.descriptor, h.inOrder⟩
        · rintro _ ⟨⟩
          exact ⟨_, rfl⟩
      · refine ⟨Standing.eprintln ?_ _, (by simp)⟩
        exact ⟨h.descriptor, h.inOrder⟩

theorem Standing.openFirst (h : Standing m) (redirects : List Redirect) :
    Standing (Shell.openOutput sys none redirects m).1 ∧
      ∀ output, (Shell.openOutput sys none redirects m).2 = .ok output → ∀ sink ∈ output, ∃ n, sink = .file n := by
  have hnone : ∀ sink ∈ (none : Option Sink), ∃ n, sink = .file n := by simp
  exact h.openOutput hnone redirects

theorem Standing.writeAll (h : Standing m) (n : ℕ) (text : Text) : Standing (writeAll sys (.file n) text m).1 := by
  unfold Shell.writeAll
  split
  · refine Standing.write ?_ n _
    exact ⟨h.descriptor, h.inOrder⟩
  · refine Standing.write ?_ n _
    exact ⟨h.descriptor, h.inOrder⟩

theorem Standing.outputBuiltin (h : Standing m) (name : Text) (arguments : List Text) (redirects : List Redirect) :
    Standing (outputBuiltin sys name arguments redirects m).1 := by
  obtain ⟨hopened, hfile⟩ : Standing (Shell.openOutput sys none redirects m).1 ∧ _ := h.openFirst redirects
  unfold Shell.outputBuiltin
  split
  · next hresult =>
    rw [hresult] at hopened
    exact hopened
  · next opened output hresult =>
    rw [hresult] at hopened hfile
    split
    · exact hopened.eprintln _
    · split
      · obtain ⟨n, rfl⟩ := hfile _ rfl _ rfl
        exact hopened.writeAll n _
      · exact ⟨hopened.descriptor, hopened.inOrder.print _⟩

theorem Standing.changeDirectory (h : Standing m) (arguments : List Text) :
    Standing (changeDirectory sys arguments m).1 := by
  unfold Shell.changeDirectory
  dsimp only
  split
  · exact ⟨h.descriptor, h.inOrder⟩
  · refine Standing.eprintln ?_ _
    exact ⟨h.descriptor, h.inOrder⟩

theorem Standing.waitChild (h : Standing m) (name : Text) : Standing (waitChild sys name m).1 := by
  have hworld (world : World) : Standing { m with world } := ⟨h.descriptor, h.inOrder⟩
  unfold Shell.waitChild
  split
  · exact (hworld _).eprintln _
  · split
    · exact hworld _
    · exact (hworld _).eprintln _
    · exact hworld _

/-! ## Children -/

/-- A process with nothing in its buffer. -/
structure Flushed (m : Machine World) : Prop where
  buffer : m.stdout.buffer = []
  inOrder : InOrder m

theorem Flushed.pending (h : Flushed m) (sink : Sink) : m.pending sink = [] := by
  unfold Machine.pending
  rw [h.buffer, ite_self]

/-- With nothing in the buffer it does not matter where descriptor 1 leads. -/
theorem Flushed.congr (h : Flushed m) (hsent : m'.sent = m.sent) (hwrote : m'.wrote = m.wrote)
    (hstdout : m'.stdout = m.stdout) : Flushed m' := by
  have hbuffer : m'.stdout.buffer = [] := by
    rw [hstdout, h.buffer]
  refine ⟨hbuffer, h.inOrder.congr hsent hwrote fun sink => ?_⟩
  rw [h.pending]
  unfold Machine.pending
  rw [hbuffer, ite_self]

theorem Flushed.flush (h : Flushed m) : Flushed m.flush :=
  ⟨rfl, h.inOrder.flush⟩

theorem Flushed.eprintln (h : Flushed m) (message : Text) : Flushed (m.eprintln message) :=
  h.flush.congr rfl rfl rfl

theorem Flushed.exit (h : Flushed m) (code : ℤ) : Flushed (exit sys code m) :=
  h.flush.congr rfl rfl rfl

theorem Flushed.redirectChild (h : Flushed m) (redirects : List Redirect) :
    Flushed (redirectChild sys redirects m).1 := by
  induction redirects generalizing m with
  | nil => exact h
  | cons redirect redirects ih =>
    rw [Shell.redirectChild]
    split
    · refine Flushed.eprintln ?_ _
      exact h.congr rfl rfl rfl
    · split
      · refine Flushed.eprintln ?_ _
        exact h.congr rfl rfl rfl
      · split_ifs
        · refine ih ?_
          exact h.congr rfl rfl rfl
        · refine ih ?_
          exact h.congr rfl rfl rfl

theorem Flushed.runChild (h : Flushed m) (name path : Text) (command : Command) :
    Flushed (runChild sys name path command m) := by
  have hredirected : Flushed (Shell.redirectChild sys command.redirects m).1 := h.redirectChild _
  unfold Shell.runChild
  split
  · next hresult =>
    rw [hresult] at hredirected
    exact hredirected.exit 1
  · next hresult =>
    rw [hresult] at hredirected
    split
    · refine Flushed.exit (Flushed.eprintln ?_ _) 126
      exact hredirected.congr rfl rfl rfl
    · refine ⟨hredirected.buffer, InOrder.write ?_ (.inl ?_)⟩
      · exact hredirected.inOrder
      · exact hredirected.pending _

theorem redirectChild_ok {redirects : List Redirect} (h : redirectChild sys redirects m = (m', true)) :
    m'.sent = m.sent ∧ m'.wrote = m.wrote := by
  induction redirects generalizing m with
  | nil =>
    obtain rfl := congrArg Prod.fst h
    exact ⟨rfl, rfl⟩
  | cons redirect redirects ih =>
    rw [redirectChild] at h
    split at h
    · exact absurd (congrArg Prod.snd h) (by simp)
    · split at h
      · exact absurd (congrArg Prod.snd h) (by simp)
      · split_ifs at h
        · obtain ⟨hsent, hwrote⟩ := ih h
          exact ⟨hsent, hwrote⟩
        · obtain ⟨hsent, hwrote⟩ := ih h
          exact ⟨hsent, hwrote⟩

/-- A quiet child writes to one sink at most, and that is not where the shell's text is waiting to go. -/
theorem Standing.quiet (h : Standing m) {path : Text} (hquiet : keepsQuiet sys command path m = true)
    (name : Text) : Standing (m.resume (runChild sys name path command m)) := by
  unfold keepsQuiet at hquiet
  split at hquiet
  · contradiction
  · next child hredirected =>
    obtain ⟨hsent, hwrote⟩ := redirectChild_ok hredirected
    split at hquiet
    · contradiction
    · next world bytes hexec =>
      unfold runChild
      rw [hredirected]
      dsimp only
      rw [hexec]
      have hpending : m.pending child.descriptor = [] ∨ bytes = [] := by
        refine (of_decide_eq_true hquiet).imp_left fun hother => if_neg ?_
        rw [h.descriptor]
        exact hother.symm
      refine ⟨h.descriptor, (h.inOrder.write hpending).congr ?_ ?_ fun _ => rfl⟩
      · exact congrArg (· ++ _) hsent
      · exact congrArg (· ++ _) hwrote

/-- A child of a shell with nothing in its buffer may fail at any point. -/
theorem Standing.flushed (h : Standing m) (hbuffer : m.stdout.buffer = []) (name path : Text)
    (command : Command) : Standing (m.resume (runChild sys name path command m)) := by
  have hchild : Flushed (runChild sys name path command m) := Flushed.runChild ⟨hbuffer, h.inOrder⟩ name path command
  refine ⟨h.descriptor, hchild.inOrder.congr rfl rfl fun sink => ?_⟩
  rw [hchild.pending]
  exact (Flushed.pending ⟨hbuffer, h.inOrder⟩ sink : m.pending sink = [])

theorem Standing.runProgram (h : Standing m) {name : Text} (hname : command.words.head? = some name)
    (hprogram : name ∉ builtins) (horderly : orderly sys command m = true) :
    Standing (runProgram sys name command m).1 := by
  unfold orderly at horderly
  rw [hname] at horderly
  dsimp only at horderly
  rw [if_neg hprogram] at horderly
  split at horderly
  · next hfound =>
    unfold Shell.runProgram
    rw [hfound]
    exact h.eprintln _
  · next path hfound =>
    split at horderly
    · next hfork =>
      unfold Shell.runProgram
      rw [hfound]
      dsimp only
      rw [hfork]
      refine Standing.eprintln ?_ _
      exact ⟨h.descriptor, h.inOrder⟩
    · next world _ hfork =>
      unfold Shell.runProgram
      rw [hfound]
      dsimp only
      rw [hfork]
      have hforked : Standing { m with world } := ⟨h.descriptor, h.inOrder⟩
      refine Standing.waitChild ?_ name
      obtain hbuffer | hquiet := (Bool.or_eq_true _ _).mp horderly
      · exact hforked.flushed (of_decide_eq_true hbuffer) name path command
      · exact hforked.quiet hquiet name

/-! ## Runs -/

theorem Standing.run (h : Standing m) (horderly : orderly sys command m = true) :
    Standing (run sys command m).1 := by
  refine run_cases (P := Standing) ?_ ?_ ?_ ?_ ?_ ?_
  · exact fun _ => (h.openFirst _).1
  · exact fun _ _ => h.changeDirectory _
  · exact fun _ _ => ⟨h.descriptor, h.inOrder⟩
  · exact fun _ _ => ⟨h.descriptor, h.inOrder⟩
  · exact fun _ _ _ => h.outputBuiltin _ _ _
  · exact fun _ hname hprogram _ => h.runProgram hname hprogram horderly

theorem Standing.runNext (h : Standing m) (horderly : orderly sys command m = true) :
    Standing (runNext sys command m) :=
  ⟨(h.run horderly).descriptor, (h.run horderly).inOrder⟩

theorem Standing.runCommands (h : Standing m) {commands : List Command}
    (horderly : orderlyCommands sys commands m = true) : Standing (runCommands sys commands m) := by
  induction commands generalizing m with
  | nil => exact h
  | cons command commands ih =>
    obtain ⟨hfirst, hrest⟩ := (Bool.and_eq_true _ _).mp horderly
    rw [Shell.runCommands]
    split_ifs with hexit
    · exact h.runNext hfirst
    · rw [Bool.eq_false_of_not_eq_true hexit, Bool.false_or] at hrest
      exact ih (h.runNext hfirst) hrest

theorem Standing.runLine (h : Standing m) {line : Text} (horderly : orderlyLine sys line m = true) :
    Standing (runLine sys line m) := by
  unfold orderlyLine at horderly
  split at horderly
  · next hparse =>
    unfold Shell.runLine
    rw [hparse]
    exact h.runCommands horderly
  · next error hparse =>
    unfold Shell.runLine
    rw [hparse]
    refine ⟨h.descriptor, ?_⟩
    exact (h.inOrder.eprintln ("sh: ".toList ++ error.message)).congr rfl rfl fun _ => rfl

theorem Standing.runLines (h : Standing m) {before : Machine World → Machine World}
    (hbefore : ∀ m, Standing m → Standing (before m)) {lines : List Text}
    (horderly : orderlyLines sys before lines m = true) : Standing (runLines sys before lines m) := by
  induction lines generalizing m with
  | nil => exact h
  | cons line lines ih =>
    obtain ⟨hfirst, hrest⟩ := (Bool.and_eq_true _ _).mp horderly
    rw [Shell.runLines]
    split_ifs with hexit
    · exact (hbefore m h).runLine hfirst
    · rw [Bool.eq_false_of_not_eq_true hexit, Bool.false_or] at hrest
      exact ih ((hbefore m h).runLine hfirst) hrest

theorem Standing.prompt (h : Standing m) (terminal : Bool) : Standing (prompt sys terminal m) := by
  unfold Shell.prompt
  split_ifs
  · exact ⟨h.descriptor, (h.inOrder.print _).flush.flush⟩
  · exact ⟨h.descriptor, h.inOrder.flush⟩

theorem Standing.interactive (h : Standing m) {terminal : Bool} {lines : List Text}
    (horderly : orderlyLines sys (Shell.prompt sys terminal) lines m = true) (error : Option Text) :
    Standing (interactive sys terminal lines error m) := by
  have hlines := h.runLines (fun _ h => h.prompt terminal) horderly
  have hended : Standing (Shell.prompt sys terminal (Shell.runLines sys (Shell.prompt sys terminal) lines m)) :=
    hlines.prompt terminal
  unfold Shell.interactive
  dsimp only
  by_cases hexit : (Shell.runLines sys (Shell.prompt sys terminal) lines m).shell.exit.isSome = true
  · rw [if_pos hexit]
    exact hlines
  · rw [if_neg hexit]
    cases error with
    | none =>
      dsimp only
      split_ifs
      · exact ⟨hended.descriptor, hended.inOrder.print _⟩
      · exact hended
    | some error => exact hended.eprintln _

/-! ## Files of earlier commands -/

/-- None of the first `n` files can be reached, and they have what is in `log`. -/
structure Spares (n : ℕ) (log : List (Sink × List UInt8)) (m : Machine World) : Prop where
  opened : n ≤ m.opened
  descriptor : ∀ k, m.descriptor = .file k → n ≤ k
  received : ∀ k < n, received (.file k) m.sent = Shell.received (.file k) log

variable {n : ℕ} {log : List (Sink × List UInt8)}

theorem Spares.write (h : Spares n log m) (hsink : ∀ k, sink = .file k → n ≤ k) {bytes : List UInt8}
    (hsent : m'.sent = m.sent ++ [(sink, bytes)]) (hopened : m'.opened = m.opened)
    (hdescriptor : m'.descriptor = m.descriptor) : Spares n log m' := by
  refine ⟨hopened ▸ h.opened, hdescriptor ▸ h.descriptor, fun k hk => ?_⟩
  have hother : ¬ sink = .file k := fun heq => absurd (hsink k heq) (Nat.not_le.mpr hk)
  rw [hsent, received_append, received_singleton, if_neg hother, List.append_nil]
  exact h.received k hk

theorem Spares.eprintln (h : Spares n log m) (message : Text) : Spares n log (m.eprintln message) :=
  h.write h.descriptor rfl rfl rfl

theorem Spares.exit (h : Spares n log m) (code : ℤ) : Spares n log (exit sys code m) :=
  h.write h.descriptor rfl rfl rfl

theorem Spares.openOutput (h : Spares n log m) {output : Option Sink}
    (houtput : ∀ sink ∈ output, ∀ k, sink = .file k → n ≤ k) (redirects : List Redirect) :
    Spares n log (openOutput sys output redirects m).1 ∧
      ∀ output', (Shell.openOutput sys output redirects m).2 = .ok output' →
        ∀ sink ∈ output', ∀ k, sink = .file k → n ≤ k := by
  induction redirects generalizing m output with
  | nil =>
    refine ⟨h, fun output' hok => ?_⟩
    obtain rfl := Except.ok.inj hok
    exact houtput
  | cons redirect redirects ih =>
    rw [Shell.openOutput]
    split_ifs
    · exact ih h houtput
    · split
      · refine ih ?_ ?_
        · exact ⟨h.opened.trans (Nat.le_succ _), h.descriptor, h.received⟩
        · rintro _ ⟨⟩ k ⟨⟩
          exact h.opened
      · refine ⟨Spares.eprintln ?_ _, (by simp)⟩
        exact ⟨h.opened, h.descriptor, h.received⟩

theorem Spares.print (h : Spares n log m) (text : Text) : Spares n log (m.print text) :=
  h.write h.descriptor rfl rfl rfl

theorem Spares.outputBuiltin (h : Spares n log m) (name : Text) (arguments : List Text)
    (redirects : List Redirect) : Spares n log (outputBuiltin sys name arguments redirects m).1 := by
  have hnone : ∀ sink ∈ (none : Option Sink), ∀ k, sink = .file k → n ≤ k := by simp
  obtain ⟨hopened, hfile⟩ : Spares n log (Shell.openOutput sys none redirects m).1 ∧ _ := h.openOutput hnone redirects
  unfold Shell.outputBuiltin
  split
  · next hresult =>
    rw [hresult] at hopened
    exact hopened
  · next opened output hresult =>
    rw [hresult] at hopened hfile
    split
    · exact hopened.eprintln _
    · split
      · next sink =>
        have hsink := hfile _ rfl sink rfl
        unfold writeAll
        split
        · exact hopened.write hsink rfl rfl rfl
        · exact hopened.write hsink rfl rfl rfl
      · exact hopened.print _

theorem Spares.changeDirectory (h : Spares n log m) (arguments : List Text) :
    Spares n log (changeDirectory sys arguments m).1 := by
  unfold Shell.changeDirectory
  dsimp only
  split
  · exact ⟨h.opened, h.descriptor, h.received⟩
  · refine Spares.eprintln ?_ _
    exact ⟨h.opened, h.descriptor, h.received⟩

/-- A child has files of its own behind its descriptor 1. -/
theorem Spares.redirectChild (h : Spares n log m) (redirects : List Redirect) :
    Spares n log (redirectChild sys redirects m).1 := by
  induction redirects generalizing m with
  | nil => exact h
  | cons redirect redirects ih =>
    rw [Shell.redirectChild]
    split
    · refine Spares.eprintln ?_ _
      exact ⟨h.opened, h.descriptor, h.received⟩
    · split
      · refine Spares.eprintln ?_ _
        exact ⟨h.opened, h.descriptor, h.received⟩
      · split_ifs
        · refine ih ?_
          exact ⟨h.opened, h.descriptor, h.received⟩
        · refine ih ⟨h.opened.trans (Nat.le_succ _), ?_, h.received⟩
          rintro k ⟨⟩
          exact h.opened

theorem Spares.runChild (h : Spares n log m) (name path : Text) (command : Command) :
    Spares n log (runChild sys name path command m) := by
  have hredirected : Spares n log (Shell.redirectChild sys command.redirects m).1 := h.redirectChild _
  unfold Shell.runChild
  split
  · next hresult =>
    rw [hresult] at hredirected
    exact hredirected.exit 1
  · next hresult =>
    rw [hresult] at hredirected
    split
    · refine Spares.exit (Spares.eprintln ?_ _) 126
      exact ⟨hredirected.opened, hredirected.descriptor, hredirected.received⟩
    · exact hredirected.write hredirected.descriptor rfl rfl rfl

theorem Spares.waitChild (h : Spares n log m) (name : Text) : Spares n log (waitChild sys name m).1 := by
  have hworld (world : World) : Spares n log { m with world } := ⟨h.opened, h.descriptor, h.received⟩
  unfold Shell.waitChild
  split
  · exact (hworld _).eprintln _
  · split
    · exact hworld _
    · exact (hworld _).eprintln _
    · exact hworld _

theorem Spares.runProgram (h : Spares n log m) (name : Text) (command : Command) :
    Spares n log (runProgram sys name command m).1 := by
  unfold Shell.runProgram
  split
  · exact h.eprintln _
  · split
    · refine Spares.eprintln ?_ _
      exact ⟨h.opened, h.descriptor, h.received⟩
    · next path _ _ _ _ _ =>
      refine Spares.waitChild ?_ name
      have hworld (world : World) : Spares n log { m with world } := ⟨h.opened, h.descriptor, h.received⟩
      have hchild (world : World) : Spares n log (Shell.runChild sys name path command { m with world }) :=
        (hworld world).runChild name path command
      exact ⟨(hchild _).opened, h.descriptor, (hchild _).received⟩

/-- What a command writes goes to the shell's standard output or to a file that is opened for it. -/
theorem received_runNext (hdescriptor : m.descriptor = .standard) (command : Command) {k : ℕ} (hk : k < m.opened) :
    received (.file k) (runNext sys command m).sent = received (.file k) m.sent := by
  have hbefore : Spares m.opened m.sent m := by
    refine ⟨le_rfl, ?_, fun _ _ => rfl⟩
    rw [hdescriptor]
    simp
  have hnone : ∀ sink ∈ (none : Option Sink), ∀ k, sink = .file k → m.opened ≤ k := by simp
  have hafter : Spares m.opened m.sent (run sys command m).1 := by
    refine run_cases (P := Spares m.opened m.sent) ?_ ?_ ?_ ?_ ?_ ?_
    · exact fun _ => (hbefore.openOutput hnone _).1
    · exact fun _ _ => hbefore.changeDirectory _
    · exact fun _ _ => ⟨hbefore.opened, hbefore.descriptor, hbefore.received⟩
    · exact fun _ _ => ⟨hbefore.opened, hbefore.descriptor, hbefore.received⟩
    · exact fun _ _ _ => hbefore.outputBuiltin _ _ _
    · exact fun _ _ _ _ => hbefore.runProgram _ _
  exact hafter.received k hk

/-! ## The output of the shell -/

theorem standing_start (vars : Variables) (world : World) : Standing (Machine.start vars world) :=
  ⟨rfl, fun sink => by
    show [] ++ (Machine.start vars world).pending sink = []
    exact ite_self _⟩

/-- **Output in order.** When the shell has exited, its standard output has got what the commands without a
redirection have written, in the commands' order and every byte once, and every file of a redirection what its
command has written, if no child that is forked while the shell has text in its buffer fails or writes to the
shell's standard output. No command ever writes to the file of another one. -/
theorem main_inOrder (sys : System World) (vars : Variables) (world : World) (invocation : Invocation)
    (horderly : orderlyRun sys (.start vars world) invocation = true) :
    (∀ sink, received sink (main sys invocation (.start vars world)).sent =
      received sink (main sys invocation (.start vars world)).wrote) ∧
    ∀ (m : Machine World) (command : Command) (k : ℕ), m.descriptor = .standard → k < m.opened →
      received (.file k) (runNext sys command m).sent = received (.file k) m.sent := by
  have hstart := standing_start vars world
  refine ⟨fun sink => ?_, fun m command k hdescriptor hk => received_runNext hdescriptor command hk⟩
  have hended (m : Machine World) (h : Standing m) :
      received sink (exit sys (m.shell.exit.getD m.shell.status) m).sent =
        received sink (exit sys (m.shell.exit.getD m.shell.status) m).wrote := by
    have hsink := h.inOrder.flush sink
    rw [show m.flush.pending sink = [] from ite_self _, List.append_nil] at hsink
    exact hsink
  cases invocation with
  | command line => exact hended _ (hstart.runLine horderly)
  | script lines => exact hended _ (hstart.runLines (fun _ h => h) horderly)
  | interactive terminal lines error => exact hended _ (hstart.interactive horderly error)

/-- A system where every path is a program that writes a `b`. -/
def letterSystem : System Unit where
  chdir _ _ := ((), .ok ())
  getcwd _ := .ok ['/']
  isFile _ _ := true
  openFile _ _ _ := ((), .ok ())
  writeFile _ _ := ((), none)
  fork _ := ((), .ok ())
  dup2 _ _ := ((), true)
  exec _ _ _ _ := ((), .ok ['b'.toUInt8])
  exitNow _ _ := ()
  wait _ := ((), .ok 0)

theorem main_inOrder_newline :
    received .standard (main letterSystem (.command "echo a; /p".toList) (.start ∅ ())).sent =
      ['a'.toUInt8, '\n'.toUInt8, 'b'.toUInt8] :=
  ((main_inOrder letterSystem ∅ () (.command "echo a; /p".toList) (by decide +kernel)).1 .standard).trans
    (by decide +kernel)

/-- Without a newline the `a` is still in the shell's buffer when the program writes its `b`. -/
theorem main_not_inOrder : ¬ ∀ (sys : System Unit) (vars : Variables) (world : Unit) (invocation : Invocation) (sink : Sink),
    received sink (main sys invocation (.start vars world)).sent =
      received sink (main sys invocation (.start vars world)).wrote := by
  intro h
  have hstandard := h letterSystem ∅ () (.command "echo -n a; /p".toList) .standard
  exact absurd hstandard (by decide +kernel)

end SaeOS.Shell
