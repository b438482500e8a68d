/-
# Escaping commands for the shell

`escape` puts double quotes around a string that has a character of a certain class, and
leaves any other string as it is. The class has most characters that mean something to a
shell, but not the pipe and the single quote, nor the number sign and the tilde that mean
something at the start of a word. `exec` joins the escaped arguments with blanks, and
`wrap-sudo` escapes a whole command for another shell.
-/

import Jepsen.Library.Shell

namespace Jepsen.Control

open Jepsen.Library Jepsen.Library.Shell

/-! ## Escaping -/

/-- The keywords that stand for redirections. -/
inductive Redirection
  | to | append | source

/-- What they are called. -/
def Redirection.name : Redirection → Text
  | .to => ['>']
  | .append => ['>', '>']
  | .source => ['<']

/-- What can be escaped. -/
inductive Arg
  | nil
  | literal (string : Text)
  | redirection (keyword : Redirection)
  | named (name : Text)
  | string (s : Text)
  /-- A sequential collection or a set. -/
  | coll (args : List Arg)

/-- The characters that have a string put into quotes; the last six of them are what `\s`
stands for. -/
def requiresQuotes (c : Char) : Bool :=
  decide (c ∈ [backslash, '$', backquote, doubleQuote, '(', ')', '\x7b', '\x7d', '[', ']', '*',
    '?', '<', '>', '&', ';', ' ', '\t', '\n', '\x0b', '\x0c', '\r'])

/-- The replacement within the quotes. -/
def escapeQuoted (s : Text) : Text :=
  s.flatMap fun c =>
    if c ∈ [backslash, '$', backquote, doubleQuote] then [backslash, c] else [c]

/-- `escape`, of a string. -/
def escapeString (s : Text) : Text :=
  if s = [] then [doubleQuote, doubleQuote]
  else if s.any requiresQuotes then doubleQuote :: (escapeQuoted s ++ [doubleQuote])
  else s

mutual

/-- `escape` -/
def escape : Arg → Text
  | .nil => []
  | .literal string => string
  | .redirection keyword => keyword.name
  | .named name => escapeString name
  | .string s => escapeString s
  | .coll args => [' '].intercalate (escapeAll args)

/-- `(map escape args)` -/
def escapeAll : List Arg → List Text
  | [] => []
  | arg :: args => escape arg :: escapeAll args

end

/-! ## Commands -/

/-- A command and its input. -/
structure Action where
  cmd : Text
  input : Option Text := none

/-- Where and as whom a command is run. -/
structure Context where
  dir : Option Text := none
  /-- `:sudo` -/
  sudoUser : Option Text := none
  sudoPassword : Option Text := none

/-- `wrap-cd` -/
def wrapCd (context : Context) (cmd : Action) : Action :=
  match context.dir with
  | some dir => { cmd with cmd := "cd ".toList ++ escapeString dir ++ "; ".toList ++ cmd.cmd }
  | none => cmd

/-- `wrap-sudo` -/
def wrapSudo (context : Context) (cmd : Action) : Action :=
  match context.sudoUser with
  | some user =>
      { cmd := "sudo -k -S -u ".toList ++ user ++ " bash -c ".toList ++ escapeString cmd.cmd
        input := match context.sudoPassword with
          | some password => some (password ++ ['\n'] ++ cmd.input.getD [])
          | none => cmd.input }
  | none => cmd

/-- What `exec*` runs. -/
def execStar (context : Context) (commands : List Text) : Action :=
  wrapSudo context (wrapCd context { cmd := [' '].intercalate commands })

/-- What `exec` runs. -/
def exec (context : Context) (commands : List Arg) : Action :=
  execStar context (escapeAll commands)

/-- A login name, of portable characters. -/
structure UserName where
  name : Text
  nonempty : name ≠ []
  portable : ∀ c ∈ name, c.isAlphanum = true ∨ c ∈ ['.', '_', '-']

end Jepsen.Control
