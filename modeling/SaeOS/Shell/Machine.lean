import SaeOS.Lib.Slices
import SaeOS.Libsaeos.Stdout
import SaeOS.Shell.Parse

/-!
# The shell at work

`userspace/sh/src/main.rs`. The shell and the children it forks are followed up to the system calls they
make; what the system answers, and what programs do and write, is a parameter. Beside the state stand the
writes that the system has taken (`sent`) and the text that commands have given to be written (`wrote`).
-/

namespace SaeOS.Shell

open Libsaeos (Stdout)

abbrev Variables := Std.TreeMap Text Text Text.order

structure Shell where
  vars : Variables
  status : ℤ
  /-- Set by `exit`: stop and exit with this. -/
  exit : Option ℤ

/-- Where bytes arrive: the standard output that the shell was started with, or the file that was opened for
output after `n` others. -/
inductive Sink where
  | standard
  | file (n : ℕ)
deriving DecidableEq

/-- What the system answers, in any state of the world outside the shell and its children. Errors are given
by the text that is shown for them. -/
structure System (World : Type) where
  chdir : World → Text → World × Except Text Unit
  getcwd : World → Except Text Text
  /-- `metadata(path).is_ok_and(..)`: a file, not a directory or a device. -/
  isFile : World → Text → Bool
  openFile : World → RedirectKind → Text → World × Except Text Unit
  /-- `write_all` to an opened file; after how many bytes it fails, if it does. -/
  writeFile : World → List UInt8 → World × Option ℕ
  fork : World → World × Except Text Unit
  dup2 : World → RedirectKind → World × Bool
  /-- A program from its start to its end, with its arguments and its environment: what it writes to its
  descriptor 1. -/
  exec : World → Text → List Text → List Text → World × Except Text (List UInt8)
  exitNow : World → ℤ → World
  wait : World → World × Except Text UInt32

/-- The shell's process or a child's, and everything around it. -/
structure Machine (World : Type) where
  shell : Shell
  stdout : Stdout
  /-- What descriptor 1 is. -/
  descriptor : Sink
  world : World
  /-- How many files have been opened for output. -/
  opened : ℕ
  sent : List (Sink × List UInt8)
  wrote : List (Sink × List UInt8)
  reported : List Text
  ran : List Command

variable {World : Type}

namespace Machine

/-- The shell as it is started. -/
def start (vars : Variables) (world : World) : Machine World where
  shell := ⟨vars, 0, none⟩
  stdout := .new
  descriptor := .standard
  world := world
  opened := 0
  sent := []
  wrote := []
  reported := []
  ran := []

/-! ## Printing -/

def flush (m : Machine World) : Machine World :=
  { m with stdout := m.stdout.flush.2, sent := m.sent ++ [(m.descriptor, m.stdout.flush.1)] }

def print (text : Text) (m : Machine World) : Machine World :=
  let written := m.stdout.writeStr text.asBytes
  { m with
    stdout := written.2
    sent := m.sent ++ [(m.descriptor, written.1)]
    wrote := m.wrote ++ [(m.descriptor, text.asBytes)] }

/-- Anything already printed comes first. -/
def eprintln (message : Text) (m : Machine World) : Machine World :=
  { m.flush with reported := m.flush.reported ++ [message] }

/-- Bytes that are written to a descriptor without the buffer. -/
def write (sink : Sink) (bytes : List UInt8) (m : Machine World) : Machine World :=
  { m with sent := m.sent ++ [(sink, bytes)], wrote := m.wrote ++ [(sink, bytes)] }

end Machine

def showError (subject error : Text) : Text :=
  "sh: ".toList ++ subject ++ ": ".toList ++ error

/-! ## Words -/

/-- `str::parse::<i32>`. -/
def parseI32 (text : Text) : Option ℤ :=
  let negative : Bool := text.head? = some '-'
  let digits := if negative ∨ text.head? = some '+' then text.tail else text
  let magnitude : ℤ := (digits.foldl (fun n digit => 10 * n + (digit.toNat - '0'.toNat)) 0 : ℕ)
  let value := if negative then -magnitude else magnitude
  if digits ≠ [] ∧ digits.all Char.isDigit ∧ -2 ^ 31 ≤ value ∧ value < 2 ^ 31 then some value else none

def help : Text :=
  ("builtins: cd [DIR], pwd, echo [-n] ARGS, export NAME=VALUE, unset NAME,\n" ++
    "          exit [CODE], help\n" ++
    "programs in $PATH run with fork + exec; redirect with > >> <, chain with ;\n" ++
    "quote with '...' or \"...\"; $NAME and $? expand\n").toList

def signalName (signal : ℤ) : Text :=
  (if signal = 4 then "SIGILL" else if signal = 5 then "SIGTRAP" else if signal = 7 then "SIGBUS"
    else if signal = 8 then "SIGFPE" else if signal = 11 then "SIGSEGV" else "a signal").toList

/-- The exit code of a status of `wait4`, if the child exited. -/
def exitedWith (status : UInt32) : Option ℤ :=
  if status &&& 0x7f = 0 then some ((status >>> 8) &&& 0xff).toNat else none

def killedBy (status : UInt32) : Option ℤ :=
  if status &&& 0x7f ≠ 0 then some (status &&& 0x7f).toNat else none

def ParseError.message : ParseError → Text
  | .unterminatedQuote => "unterminated quote".toList
  | .missingRedirectTarget => "redirection without a file name".toList
  | .badSubstitution => "bad $\x7b...\x7d substitution".toList

/-- What a line's references stand for. -/
def Shell.lookup (shell : Shell) : Lookup := fun name =>
  if name = ['?'] then some (toString shell.status).toList else shell.vars[name]?

def Shell.environment (shell : Shell) : List Text :=
  shell.vars.toList.map fun (name, value) => name ++ '=' :: value

/-- `export`, for one argument. -/
def Variables.assign (vars : Variables) (assignment : Text) : Variables :=
  match Text.splitOnce '=' assignment with
  | some (name, value) => vars.insert name value
  -- `export NAME` keeps a variable as it is
  | none => vars.insertIfNew assignment []

/-! ## Commands -/

section Commands

variable (sys : System World)

/-- The loop of `open_output`: the last `>` or `>>` target. -/
def openOutput (output : Option Sink) : List Redirect → Machine World → Machine World × Except Unit (Option Sink)
  | [], m => (m, .ok output)
  | redirect :: redirects, m =>
    if redirect.kind = .input then openOutput output redirects m
    else
      match sys.openFile m.world redirect.kind redirect.target with
      | (world, .ok _) =>
        openOutput (some (.file m.opened)) redirects { m with world, opened := m.opened + 1 }
      | (world, .error error) => ({ m with world }.eprintln (showError redirect.target error), .error ())

/-- What `echo`, `pwd` or `help` writes. -/
def builtinText (name : Text) (arguments : List Text) (m : Machine World) : Except Text Text :=
  if name = "echo".toList then
    if arguments.head? = some "-n".toList then .ok ([' '].intercalate arguments.tail)
    else .ok ([' '].intercalate arguments ++ ['\n'])
  else if name = "pwd".toList then (sys.getcwd m.world).map (· ++ ['\n'])
  else .ok help

/-- `write_all` to an opened file. -/
def writeAll (sink : Sink) (text : Text) (m : Machine World) : Machine World × ℤ :=
  match sys.writeFile m.world text.asBytes with
  | (world, none) => ({ m with world }.write sink text.asBytes, 0)
  | (world, some count) => ({ m with world }.write sink (text.asBytes.take count), 1)

def outputBuiltin (name : Text) (arguments : List Text) (redirects : List Redirect) (m : Machine World) :
    Machine World × ℤ :=
  match openOutput sys none redirects m with
  | (m, .error _) => (m, 1)
  | (m, .ok output) =>
    match builtinText sys name arguments m with
    | .error error => (m.eprintln (showError "pwd".toList error), 1)
    | .ok text =>
      match output with
      | some sink => writeAll sys sink text m
      | none => (m.print text, 0)

/-- `name` as a path to run: as given if it has a `/`, else the first match in `PATH`. -/
def findProgram (name : Text) (m : Machine World) : Option Text :=
  if '/' ∈ name then if sys.isFile m.world name then some name else none
  else
    let path := m.shell.vars["PATH".toList]?.getD "/bin:/sbin".toList
    let directories := (path.splitOn ':').filter (· ≠ [])
    (directories.map fun directory => directory.rdropWhile (· = '/') ++ '/' :: name).find? (sys.isFile m.world)

/-- In the child, before exec: point stdin and stdout at the redirection files. -/
def redirectChild : List Redirect → Machine World → Machine World × Bool
  | [], m => (m, true)
  | redirect :: redirects, m =>
    match sys.openFile m.world redirect.kind redirect.target with
    | (world, .error error) => ({ m with world }.eprintln (showError redirect.target error), false)
    | (world, .ok _) =>
      match sys.dup2 world redirect.kind with
      | (world, false) =>
        ({ m with world }.eprintln (showError redirect.target "cannot redirect".toList), false)
      | (world, true) =>
        if redirect.kind = .input then redirectChild redirects { m with world }
        else redirectChild redirects { m with world, descriptor := .file m.opened, opened := m.opened + 1 }

def exit (code : ℤ) (m : Machine World) : Machine World :=
  { m.flush with world := sys.exitNow m.flush.world code }

/-- The child, with a copy of the shell's memory, up to its end. -/
def runChild (name path : Text) (command : Command) (child : Machine World) : Machine World :=
  match redirectChild sys command.redirects child with
  | (child, false) => exit sys 1 child
  | (child, true) =>
    match sys.exec child.world path command.words child.shell.environment with
    | (world, .error error) => exit sys 126 ({ child with world }.eprintln (showError name error))
    -- the program has its own memory
    | (world, .ok bytes) => { child with world }.write child.descriptor bytes

/-- The shell goes on with its own memory and its own descriptors. -/
def Machine.resume (m child : Machine World) : Machine World :=
  { child with shell := m.shell, stdout := m.stdout, descriptor := m.descriptor }

def waitChild (name : Text) (m : Machine World) : Machine World × ℤ :=
  match sys.wait m.world with
  | (world, .error error) => ({ m with world }.eprintln (showError "wait".toList error), 1)
  | (world, .ok status) =>
    match exitedWith status, killedBy status with
    | some code, _ => ({ m with world }, code)
    | none, some signal =>
      ({ m with world }.eprintln (showError name ("killed by ".toList ++ signalName signal)), 128 + signal)
    | none, none => ({ m with world }, 1)

def runProgram (name : Text) (command : Command) (m : Machine World) : Machine World × ℤ :=
  match findProgram sys name m with
  | none => (m.eprintln (showError name "not found".toList), 127)
  | some path =>
    match sys.fork m.world with
    | (world, .error error) => ({ m with world }.eprintln (showError "fork".toList error), 1)
    | (world, .ok _) => waitChild sys name (m.resume (runChild sys name path command { m with world }))

def changeDirectory (arguments : List Text) (m : Machine World) : Machine World × ℤ :=
  let target := (arguments.head?.or m.shell.vars["HOME".toList]?).getD ['/']
  match sys.chdir m.world target with
  | (world, .ok _) => ({ m with world }, 0)
  | (world, .error error) =>
    ({ m with world }.eprintln (showError ("cd: ".toList ++ target) error), 1)

/-- One command, and its status. -/
def run (command : Command) (m : Machine World) : Machine World × ℤ :=
  match command.words with
  -- only redirections: `> file` creates (or truncates) the file
  | [] =>
    match openOutput sys none command.redirects m with
    | (m, .ok _) => (m, 0)
    | (m, .error _) => (m, 1)
  | name :: arguments =>
    if name = "cd".toList then changeDirectory sys arguments m
    else if name = "exit".toList then
      let code := (arguments.head?.map fun code => (parseI32 code).getD 2).getD m.shell.status
      ({ m with shell := { m.shell with exit := some code } }, code)
    else if name = "export".toList then
      let vars := arguments.foldl Variables.assign m.shell.vars
      ({ m with shell := { m.shell with vars } }, 0)
    else if name = "unset".toList then
      let vars := arguments.foldl (fun vars name => vars.erase name) m.shell.vars
      ({ m with shell := { m.shell with vars } }, 0)
    else if name = "echo".toList ∨ name = "pwd".toList ∨ name = "help".toList then
      outputBuiltin sys name arguments command.redirects m
    else runProgram sys name command m

/-- What `exit` is given as a command. -/
def Command.Exits (command : Command) : Prop :=
  command.words.head? = some "exit".toList
deriving Decidable

/-- What the shell runs itself. -/
def builtins : List Text :=
  ["cd".toList, "exit".toList, "export".toList, "unset".toList, "echo".toList, "pwd".toList, "help".toList]

variable {sys} in
/-- What holds of each kind of command holds of `run`. -/
theorem run_cases {command : Command} {m : Machine World} {P : Machine World → Prop}
    (hopen : ¬ command.Exits → P (openOutput sys none command.redirects m).1)
    (hcd : ∀ arguments, ¬ command.Exits → P (changeDirectory sys arguments m).1)
    (hexit : ∀ code, command.Exits → P { m with shell := { m.shell with exit := some code } })
    (hassign : ∀ vars, ¬ command.Exits → P { m with shell := { m.shell with vars } })
    (hprint : ∀ name arguments, ¬ command.Exits → P (outputBuiltin sys name arguments command.redirects m).1)
    (hprogram : ∀ name, command.words.head? = some name → name ∉ builtins → ¬ command.Exits →
      P (runProgram sys name command m).1) : P (run sys command m).1 := by
  unfold run
  split
  · next hwords =>
    have hnot : ¬ command.Exits := by
      rw [Command.Exits, hwords]
      simp
    have hopened := hopen hnot
    split
    · next h => rwa [h] at hopened
    · next h => rwa [h] at hopened
  · next name arguments hwords =>
    have hexits : command.Exits ↔ name = "exit".toList := by
      rw [Command.Exits, hwords, List.head?_cons, Option.some.injEq]
    by_cases hnameCd : name = "cd".toList
    · rw [if_pos hnameCd]
      refine hcd arguments ?_
      rw [hexits, hnameCd]
      decide
    rw [if_neg hnameCd]
    by_cases hnameExit : name = "exit".toList
    · rw [if_pos hnameExit]
      exact hexit _ (hexits.mpr hnameExit)
    have hnot := hnameExit ∘ hexits.mp
    rw [if_neg hnameExit]
    by_cases hnameExport : name = "export".toList
    · rw [if_pos hnameExport]
      exact hassign _ hnot
    rw [if_neg hnameExport]
    by_cases hnameUnset : name = "unset".toList
    · rw [if_pos hnameUnset]
      exact hassign _ hnot
    rw [if_neg hnameUnset]
    by_cases hnameOutput : name = "echo".toList ∨ name = "pwd".toList ∨ name = "help".toList
    · rw [if_pos hnameOutput]
      exact hprint _ _ hnot
    · rw [if_neg hnameOutput]
      refine hprogram name (by rw [hwords, List.head?_cons]) ?_ hnot
      simp only [builtins, List.mem_cons, List.not_mem_nil, or_false, hnameCd, hnameExit, hnameExport, hnameUnset,
        false_or]
      exact hnameOutput

/-! ## Lines -/

/-- One round of the loop of `run_line`. -/
def runNext (command : Command) (m : Machine World) : Machine World :=
  let (m, status) := run sys command m
  { m with shell := { m.shell with status }, ran := m.ran ++ [command] }

/-- The commands of a line, until one of them exits the shell. -/
def runCommands : List Command → Machine World → Machine World
  | [], m => m
  | command :: commands, m =>
    let m := runNext sys command m
    if m.shell.exit.isSome then m else runCommands commands m

def runLine (line : Text) (m : Machine World) : Machine World :=
  match parse line m.shell.lookup with
  | .ok commands => runCommands sys commands m
  | .error error =>
    let m := m.eprintln ("sh: ".toList ++ error.message)
    { m with shell := { m.shell with status := 2 } }

/-- Line after line, with what comes before each, until one exits the shell. -/
def runLines (before : Machine World → Machine World) : List Text → Machine World → Machine World
  | [], m => m
  | line :: lines, m =>
    let m := runLine sys line (before m)
    if m.shell.exit.isSome then m else runLines before lines m

/-- The prompt, if standard input is a terminal. Reading a line sends what is printed. -/
def prompt (terminal : Bool) (m : Machine World) : Machine World :=
  if terminal then
    let directory := match sys.getcwd m.world with
      | .ok directory => directory
      | .error _ => ['?']
    (m.print ("saeos:".toList ++ directory ++ "$ ".toList)).flush.flush
  else m.flush

/-- The lines that are read, and the error that ends them instead of the end of the file. -/
def interactive (terminal : Bool) (lines : List Text) (error : Option Text) (m : Machine World) : Machine World :=
  let m := runLines sys (prompt sys terminal) lines m
  if m.shell.exit.isSome then m
  else
    let m := prompt sys terminal m
    match error with
    | none => if terminal then m.print ['\n'] else m
    | some error => m.eprintln (showError "reading input".toList error)

/-- How the shell is started: `sh -c COMMAND`, `sh FILE` with the lines of the file, or `sh`. -/
inductive Invocation where
  | command (line : Text)
  | script (lines : List Text)
  | interactive (terminal : Bool) (lines : List Text) (error : Option Text)

/-- The shell from its first command until it has exited. -/
def main (invocation : Invocation) (m : Machine World) : Machine World :=
  let m := match invocation with
    | .command line => runLine sys line m
    | .script lines => runLines sys id lines m
    | .interactive terminal lines error => interactive sys terminal lines error m
  exit sys (m.shell.exit.getD m.shell.status) m

end Commands

end SaeOS.Shell
