import Xv6.User.Sh.Lex
import Xv6.Lib.Trans

/-!
# The shell's parser (`sh.c`: `parsecmd` and the functions it calls, `nulterminate`)

A recursive descent over the tokens, with one token of lookahead through `peek`:
`parseline` reads a pipeline, any number of `&`, then after a `;` another line; `parsepipe` a
command, then after a `|` another pipeline; `parseexec` a block `( ... )` or the words and
redirections of a command; `parseredirs` the redirections after them. Each returns the command it
built and the new `*ps`, or ends in `panic` with the source's message.

The functions that call each other take a `fuel` that each call spends one of, and the loops one
that each turn spends one of; where it runs out the model is `blocked`. `parsecmd` gives enough of
both (`Xv6.Sh.Grammar`). `execcmd` fills its `argv` through a pointer it keeps after
`parseredirs` has wrapped it: here `Cmd.setArgv` stores the words under those wrappers at the end.

* `Cmd` : `struct cmd` and its five kinds, a word or a file name by its `q` and `eq`;
* `parseredirs`, `execLoop`, `backLoop` : the three loops;
* `parseline`, `parsepipe`, `parseexec`, `parseblock` : the descent; `parsecmd`;
* `nulterminate` : the `NUL` written after every word and file name.
-/

namespace Xv6.Sh

open Trans

/-- `MAXARGS` -/
def maxArgs : Nat := 10

/-- `O_RDONLY` -/
def oRdonly : Nat := 0x000

/-- `O_WRONLY` -/
def oWronly : Nat := 0x001

/-- `O_CREATE` -/
def oCreate : Nat := 0x200

/-- `O_TRUNC` -/
def oTrunc : Nat := 0x400

/-- `struct cmd`: what the parser builds; a word or a file name is its `q` and `eq` in the line. -/
inductive Cmd
  | exec (argv : List (Nat × Nat))
  | redir (cmd : Cmd) (file : Nat × Nat) (mode : Nat) (fd : Nat)
  | pipe (left right : Cmd)
  | list (left right : Cmd)
  | back (cmd : Cmd)
  deriving DecidableEq, Repr

/-- `cmd->argv[i] = q` through the pointer `parseexec` keeps to its `execcmd`, under the
`redircmd`s wrapped around it since. -/
def Cmd.setArgv (argv : List (Nat × Nat)) : Cmd → Cmd
  | .exec _ => .exec argv
  | .redir c file mode fd => .redir (c.setArgv argv) file mode fd
  | c => c

/-! ## The loops -/

/-- `parseredirs(cmd, ps, es)`: a turn reads a redirection and its file, and wraps `cmd`. -/
def parseredirs (buf : List UInt8) : Nat → Cmd → Nat → Outcome (Cmd × Nat)
  | 0, _, _ => .blocked
  | fuel + 1, cmd, ps =>
    let (more, ps) := peek buf ps [60, 62]
    if !more then .ok (cmd, ps)
    else
      let (tok, _, _, ps) := gettoken buf ps
      let (t, q, eq, ps) := gettoken buf ps
      if t ≠ 97 then .panic "missing file for redirection"
      else if tok = 60 then parseredirs buf fuel (.redir cmd (q, eq) oRdonly 0) ps
      else if tok = 62 then parseredirs buf fuel (.redir cmd (q, eq) (oWronly ||| oCreate ||| oTrunc) 1) ps
      else if tok = 43 then parseredirs buf fuel (.redir cmd (q, eq) (oWronly ||| oCreate) 1) ps
      else parseredirs buf fuel cmd ps

example : parseredirs [] 1 (.exec []) 0 = .ok (.exec [], 0) := by rw [parseredirs]; decide

/-- The loop of `parseexec` over its words: `argv` holds the words stored so far, `ret` the command
with the redirections read so far around its `execcmd`. -/
def execLoop (buf : List UInt8) : Nat → List (Nat × Nat) → Cmd → Nat → Outcome (Cmd × Nat)
  | 0, _, _, _ => .blocked
  | fuel + 1, argv, ret, ps =>
    let (stop, ps) := peek buf ps [124, 41, 38, 59]
    if stop then .ok (ret.setArgv argv, ps)
    else
      let (tok, q, eq, ps) := gettoken buf ps
      if tok = 0 then .ok (ret.setArgv argv, ps)
      else if tok ≠ 97 then .panic "syntax"
      else if argv.length + 1 ≥ maxArgs then .panic "too many args"
      else do
        let (ret, ps) ← parseredirs buf (buf.length + 1) ret ps
        execLoop buf fuel (argv ++ [(q, eq)]) ret ps

example : execLoop [] 1 [] (.exec []) 0 = .ok (.exec [], 0) := by rw [execLoop]; decide

/-- `while(peek(ps, es, "&")){ gettoken(ps, es, 0, 0); cmd = backcmd(cmd); }` -/
def backLoop (buf : List UInt8) : Nat → Cmd → Nat → Outcome (Cmd × Nat)
  | 0, _, _ => .blocked
  | fuel + 1, cmd, ps =>
    let (more, ps) := peek buf ps [38]
    if more then backLoop buf fuel (.back cmd) (gettoken buf ps).2.2.2 else .ok (cmd, ps)

example : backLoop [] 1 (.exec []) 0 = .ok (.exec [], 0) := by rw [backLoop]; decide

/-! ## The descent -/

mutual

/-- `parseline(ps, es)` -/
def parseline (buf : List UInt8) : Nat → Nat → Outcome (Cmd × Nat)
  | 0, _ => .blocked
  | fuel + 1, ps => do
    let (cmd, ps) ← parsepipe buf fuel ps
    let (cmd, ps) ← backLoop buf (buf.length + 1) cmd ps
    let (more, ps) := peek buf ps [59]
    if more then
      let (right, ps) ← parseline buf fuel (gettoken buf ps).2.2.2
      .ok (.list cmd right, ps)
    else .ok (cmd, ps)
termination_by structural fuel => fuel

/-- `parsepipe(ps, es)` -/
def parsepipe (buf : List UInt8) : Nat → Nat → Outcome (Cmd × Nat)
  | 0, _ => .blocked
  | fuel + 1, ps => do
    let (cmd, ps) ← parseexec buf fuel ps
    let (more, ps) := peek buf ps [124]
    if more then
      let (right, ps) ← parsepipe buf fuel (gettoken buf ps).2.2.2
      .ok (.pipe cmd right, ps)
    else .ok (cmd, ps)
termination_by structural fuel => fuel

/-- `parseblock(ps, es)` -/
def parseblock (buf : List UInt8) : Nat → Nat → Outcome (Cmd × Nat)
  | 0, _ => .blocked
  | fuel + 1, ps =>
    let (opening, ps) := peek buf ps [40]
    if !opening then .panic "parseblock"
    else do
      let (cmd, ps) ← parseline buf fuel (gettoken buf ps).2.2.2
      let (closing, ps) := peek buf ps [41]
      if !closing then .panic "syntax - missing )"
      else parseredirs buf (buf.length + 1) cmd (gettoken buf ps).2.2.2
termination_by structural fuel => fuel

/-- `parseexec(ps, es)` -/
def parseexec (buf : List UInt8) : Nat → Nat → Outcome (Cmd × Nat)
  | 0, _ => .blocked
  | fuel + 1, ps =>
    let (block, ps) := peek buf ps [40]
    if block then parseblock buf fuel ps
    else do
      let (ret, ps) ← parseredirs buf (buf.length + 1) (.exec []) ps
      execLoop buf (buf.length + 1) [] ret ps
termination_by structural fuel => fuel

end

example : parseline [] 1 0 = .blocked := by rw [parseline]; decide
example : parsepipe [] 1 0 = .blocked := by rw [parsepipe]; decide
example : parseblock [] 1 0 = .panic "parseblock" := by rw [parseblock]; decide
example : parseexec [] 1 0 = .ok (.exec [], 0) := by rw [parseexec]; decide

/-- `nulterminate(cmd)`: a `NUL` at the end of every word and file name. -/
def nulterminate : Cmd → List UInt8 → List UInt8
  | .exec argv, buf => argv.foldl (fun buf w => buf.set w.2 0) buf
  | .redir c file _ _, buf => (nulterminate c buf).set file.2 0
  | .pipe l r, buf => nulterminate r (nulterminate l buf)
  | .list l r, buf => nulterminate r (nulterminate l buf)
  | .back c, buf => nulterminate c buf

/-- `parsecmd(s)`: the command, and the line after `nulterminate`; a token left over after the line
is a syntax error. -/
def parsecmd (buf : List UInt8) : Outcome (Cmd × List UInt8) := do
  let (cmd, ps) ← parseline buf (4 * buf.length + 4) 0
  let (_, ps) := peek buf ps []
  if ps ≠ buf.length then .panic "syntax"
  else .ok (cmd, nulterminate cmd buf)

example : parsecmd [108, 115, 32, 124, 32, 119, 99] =
    .ok (.pipe (.exec [(0, 2)]) (.exec [(5, 7)]), [108, 115, 0, 124, 32, 119, 99]) := by decide

example : parsecmd [40, 97, 59, 98, 41, 62, 62, 120] =
    .ok (.redir (.list (.exec [(1, 2)]) (.exec [(3, 4)])) (7, 8) (oWronly ||| oCreate) 1,
      [40, 97, 0, 98, 0, 62, 62, 120]) := by decide

example : parsecmd [97, 32, 40] = .panic "syntax" := by decide

end Xv6.Sh
