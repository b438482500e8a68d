/-
# How a shell reads words

A POSIX shell splits a line into words and operators in one pass over its characters. A
blank ends a word, quotes and backslashes make characters stand for themselves, and a
number sign between words starts a comment. What a word's value is may depend on the
environment: a tilde-prefix stands for a home directory, and parameters, command
substitutions and patterns are not interpreted here at all. Some shells also expand
tilde-prefixes in words that look like assignments.
-/

import Mathlib

namespace Jepsen.Library.Shell

/-- Characters of a line. -/
abbrev Text := List Char

abbrev singleQuote : Char := '\x27'
abbrev doubleQuote : Char := '\x22'
abbrev backslash : Char := '\x5c'
abbrev backquote : Char := '\x60'

/-! ## Words -/

/-- A character of a word. -/
inductive Piece
  | literal (c : Char)
  | quoted (c : Char)
  /-- The start of an expansion, or of a pattern. -/
  | expansion (c : Char)
  deriving DecidableEq

/-- What a line is split into. -/
inductive Token
  | word (pieces : List Piece)
  | operator (c : Char)
  deriving DecidableEq

/-! ## Splitting a line -/

def isBlank (c : Char) : Bool := decide (c ∈ [' ', '\t'])

def isOperator (c : Char) : Bool := decide (c ∈ ['|', '&', ';', '<', '>', '(', ')', '\n'])

/-- Characters that start an expansion or a pattern outside of quotes. -/
def isActive (c : Char) : Bool := decide (c ∈ ['$', backquote, '*', '?', '[', '\x7b', '\x7d'])

/-- Characters that a backslash escapes within double quotes. -/
def isEscapable (c : Char) : Bool := decide (c ∈ ['$', backquote, doubleQuote, backslash])

inductive Mode
  | plain | escaped | single | double | doubleEscaped | comment
  deriving DecidableEq

/-- The word that was started and the tokens before it. -/
structure State where
  mode : Mode := .plain
  word : Option (List Piece) := none
  tokens : List Token := []

namespace State

/-- A piece for the current word. -/
def push (s : State) (mode : Mode) (pieces : List Piece) : State :=
  { s with mode := mode, word := some (s.word.getD [] ++ pieces) }

/-- The end of the current word, if there is one. -/
def delimit (s : State) : State :=
  match s.word with
  | some pieces => { s with word := none, tokens := s.tokens ++ [.word pieces] }
  | none => s

/-- An operator, which ends the current word. -/
def operate (s : State) (c : Char) : State :=
  { s.delimit with mode := .plain, tokens := s.delimit.tokens ++ [.operator c] }

/-- A character outside of quotes. -/
def plainStep (s : State) (c : Char) : State :=
  if isBlank c then s.delimit
  else if isOperator c then s.operate c
  else if c = '#' ∧ s.word = none then { s with mode := .comment }
  else if c = singleQuote then s.push .single []
  else if c = doubleQuote then s.push .double []
  else if c = backslash then { s with mode := .escaped }
  else if isActive c then s.push .plain [.expansion c]
  else s.push .plain [.literal c]

/-- A character within double quotes. -/
def doubleStep (s : State) (c : Char) : State :=
  if c = doubleQuote then { s with mode := .plain }
  else if c = backslash then { s with mode := .doubleEscaped }
  else if isEscapable c then s.push .double [.expansion c]
  else s.push .double [.quoted c]

/-- One character of the line. -/
def step (s : State) (c : Char) : State :=
  match s.mode with
  | .plain => s.plainStep c
  -- a backslash and a newline continue the line
  | .escaped => if c = '\n' then { s with mode := .plain } else s.push .plain [.quoted c]
  | .single => if c = singleQuote then { s with mode := .plain } else s.push .single [.quoted c]
  | .double => s.doubleStep c
  | .doubleEscaped =>
      if c = '\n' then { s with mode := .double }
      else if isEscapable c then s.push .double [.quoted c]
      else s.push .double [.quoted backslash, .quoted c]
  | .comment => if c = '\n' then s.operate c else s

/-- The characters of a text, one after another. -/
def read (s : State) (text : Text) : State := text.foldl step s

/-- The tokens of a line that ends here, none within quotes. -/
def finish (s : State) : Option (List Token) :=
  match s.mode with
  | .plain | .comment => some s.delimit.tokens
  | .escaped => some (s.push .plain [.quoted backslash]).delimit.tokens
  | .single | .double | .doubleEscaped => none

end State

/-- The tokens of a line. -/
def tokenize (line : Text) : Option (List Token) := (State.read {} line).finish

/-! ## Tilde expansion -/

/-- The home directories of the login names. -/
abbrev Environment := Text → Option Text

/-- Which words a shell expands tilde-prefixes in. -/
structure Options where
  /-- Behind the first equals sign of a word that looks like an assignment, and behind each
  colon from there, too. -/
  assignmentTildes : Bool

/-- The character that a piece stands for, by itself. -/
def Piece.char? : Piece → Option Char
  | .literal c | .quoted c => some c
  | .expansion _ => none

def Piece.isLiteral : Piece → Bool
  | .literal _ => true
  | _ => false

/-- A tilde-prefix at the start of some pieces is replaced with a home directory. -/
def expandTilde (env : Environment) : List Piece → List Piece
  | .literal '~' :: rest =>
      let login := rest.takeWhile fun p => decide (p ≠ .literal '/')
      if login.all Piece.isLiteral then
        match env (login.filterMap Piece.char?) with
        | some home => home.map .quoted ++ rest.dropWhile fun p => decide (p ≠ .literal '/')
        | none => .literal '~' :: rest
      else .literal '~' :: rest
  | pieces => pieces

def isNamePiece : Piece → Bool
  | .literal c => c.isAlphanum || decide (c = '_')
  | _ => false

def isNameStart : Piece → Bool
  | .literal c => c.isAlpha || decide (c = '_')
  | _ => false

/-- A word that looks like an assignment, up to its equals sign and from there. -/
def assignment? (pieces : List Piece) : Option (List Piece × List Piece) :=
  let name := pieces.takeWhile isNamePiece
  if (name.head?.map isNameStart).getD false then
    match pieces.dropWhile isNamePiece with
    | .literal '=' :: value => some (name ++ [.literal '='], value)
    | .literal '+' :: .literal '=' :: value => some (name ++ [.literal '+', .literal '='], value)
    | _ => none
  else none

/-- The tilde-prefixes of a word, expanded. -/
def Options.expand (options : Options) (env : Environment) (pieces : List Piece) : List Piece :=
  match options.assignmentTildes, assignment? pieces with
  | true, some (target, value) =>
      target ++ [Piece.literal ':'].intercalate
        ((value.splitOn (.literal ':')).map (expandTilde env))
  | _, _ => expandTilde env pieces

/-- The value of a word. -/
def Options.value (options : Options) (env : Environment) : Token → Option Text
  | .word pieces => (options.expand env pieces).mapM Piece.char?
  | .operator _ => none

/-- The words of a line, if it has nothing but words. -/
def Options.words (options : Options) (env : Environment) (line : Text) : Option (List Text) :=
  (tokenize line).bind fun tokens => tokens.mapM (options.value env)

/-- In every environment, the line is exactly these words. -/
def Options.Reads (options : Options) (line : Text) (words : List Text) : Prop :=
  ∀ env, options.words env line = some words

namespace State

/-! ## Reading -/

theorem read_append (s : State) (text text' : Text) :
    s.read (text ++ text') = (s.read text).read text' := List.foldl_append

@[simp]
theorem read_cons (s : State) (c : Char) (text : Text) :
    s.read (c :: text) = (s.step c).read text := rfl

@[simp]
theorem read_nil (s : State) : s.read [] = s := rfl

theorem push_push (s : State) (mode mode' : Mode) (pieces pieces' : List Piece) :
    (s.push mode pieces).push mode' pieces' = s.push mode' (pieces ++ pieces') := by
  unfold push
  rw [Option.getD_some, List.append_assoc]

/-- What a character can do: change the mode, add to the word, end it, or be an operator. -/
theorem step_cases (s : State) (c : Char) :
    (∃ mode, s.step c = { s with mode := mode }) ∨
      (∃ mode pieces, s.step c = s.push mode pieces) ∨
      s.step c = s.delimit ∨ s.step c = s.operate c := by
  unfold step
  cases s.mode with
  | plain =>
    dsimp only
    unfold plainStep
    split_ifs
    · exact Or.inr (Or.inr (Or.inl rfl))
    · exact Or.inr (Or.inr (Or.inr rfl))
    · exact Or.inl ⟨_, rfl⟩
    · exact Or.inr (Or.inl ⟨_, _, rfl⟩)
    · exact Or.inr (Or.inl ⟨_, _, rfl⟩)
    · exact Or.inl ⟨_, rfl⟩
    · exact Or.inr (Or.inl ⟨_, _, rfl⟩)
    · exact Or.inr (Or.inl ⟨_, _, rfl⟩)
  | double =>
    dsimp only
    unfold doubleStep
    split_ifs
    · exact Or.inl ⟨_, rfl⟩
    · exact Or.inl ⟨_, rfl⟩
    · exact Or.inr (Or.inl ⟨_, _, rfl⟩)
    · exact Or.inr (Or.inl ⟨_, _, rfl⟩)
  | doubleEscaped =>
    dsimp only
    split_ifs
    · exact Or.inl ⟨_, rfl⟩
    · exact Or.inr (Or.inl ⟨_, _, rfl⟩)
    · exact Or.inr (Or.inl ⟨_, _, rfl⟩)
  | comment =>
    dsimp only
    split_ifs
    · exact Or.inr (Or.inr (Or.inr rfl))
    · exact Or.inl ⟨s.mode, rfl⟩
  | _ =>
    dsimp only
    split_ifs
    · exact Or.inl ⟨_, rfl⟩
    · exact Or.inr (Or.inl ⟨_, _, rfl⟩)

/-- The tokens of the delimited state begin with those of the state. -/
theorem prefix_delimit (s : State) : s.tokens <+: s.delimit.tokens := by
  unfold delimit
  cases s.word with
  | none => exact List.prefix_refl _
  | some pieces => exact List.prefix_append _ _

theorem prefix_step (s : State) (c : Char) : s.tokens <+: (s.step c).tokens := by
  obtain ⟨mode, hstep⟩ | ⟨mode, pieces, hstep⟩ | hstep | hstep := s.step_cases c
  · rw [hstep]
  · rw [hstep]
    exact List.prefix_refl _
  · rw [hstep]
    exact s.prefix_delimit
  · rw [hstep]
    exact s.prefix_delimit.trans (List.prefix_append _ _)

theorem prefix_read (s : State) (text : Text) : s.tokens <+: (s.read text).tokens := by
  induction text generalizing s with
  | nil => exact List.prefix_refl _
  | cons c text ih => exact (s.prefix_step c).trans (ih _)

/-- Tokens stay. -/
theorem prefix_finish {s : State} {tokens : List Token} (hfinish : s.finish = some tokens) :
    s.tokens <+: tokens := by
  unfold finish at hfinish
  cases hmode : s.mode with
  | plain =>
    rw [hmode] at hfinish
    exact Option.some.inj hfinish ▸ s.prefix_delimit
  | comment =>
    rw [hmode] at hfinish
    exact Option.some.inj hfinish ▸ s.prefix_delimit
  | escaped =>
    rw [hmode] at hfinish
    exact Option.some.inj hfinish ▸ (s.push .plain [.quoted backslash]).prefix_delimit
  | _ =>
    rw [hmode] at hfinish
    cases hfinish

/-- The word that begins with some pieces comes right after some tokens. -/
def Started (tokens : List Token) (pieces : List Piece) (s : State) : Prop :=
  (s.tokens = tokens ∧ ∃ more, s.word = some (pieces ++ more)) ∨
    ∃ more, tokens ++ [.word (pieces ++ more)] <+: s.tokens

theorem Started.delimit {tokens : List Token} {pieces : List Piece} {s : State}
    (h : Started tokens pieces s) : ∃ more, tokens ++ [.word (pieces ++ more)] <+: s.delimit.tokens := by
  cases h with
  | inl hcurrent =>
    obtain ⟨htokens, more, hword⟩ := hcurrent
    refine ⟨more, ?_⟩
    unfold State.delimit
    rw [hword, htokens]
  | inr hbefore =>
    obtain ⟨more, hbegins⟩ := hbefore
    exact ⟨more, hbegins.trans s.prefix_delimit⟩

theorem Started.push {tokens : List Token} {pieces : List Piece} {s : State}
    (h : Started tokens pieces s) (mode : Mode) (more : List Piece) :
    Started tokens pieces (s.push mode more) := by
  cases h with
  | inl hcurrent =>
    obtain ⟨htokens, more', hword⟩ := hcurrent
    refine Or.inl ⟨htokens, more' ++ more, ?_⟩
    rw [State.push, hword, Option.getD_some, List.append_assoc]
  | inr hbefore => exact Or.inr hbefore

theorem Started.step {tokens : List Token} {pieces : List Piece} {s : State}
    (h : Started tokens pieces s) (c : Char) : Started tokens pieces (s.step c) := by
  obtain ⟨mode, hstep⟩ | ⟨mode, more, hstep⟩ | hstep | hstep := s.step_cases c
  · rw [hstep]
    exact h
  · rw [hstep]
    exact h.push mode more
  · rw [hstep]
    exact Or.inr h.delimit
  · rw [hstep]
    obtain ⟨more, hbegins⟩ := h.delimit
    exact Or.inr ⟨more, hbegins.trans (List.prefix_append _ _)⟩

theorem Started.read {tokens : List Token} {pieces : List Piece} {s : State}
    (h : Started tokens pieces s) (text : Text) : Started tokens pieces (s.read text) := by
  induction text generalizing s with
  | nil => exact h
  | cons c text ih => exact ih (h.step c)

/-- A word that was started is one of the tokens. -/
theorem Started.finish {tokens tokens' : List Token} {pieces : List Piece} {s : State}
    (h : Started tokens pieces s) (hfinish : s.finish = some tokens') :
    ∃ more, tokens ++ [.word (pieces ++ more)] <+: tokens' := by
  unfold State.finish at hfinish
  cases hmode : s.mode with
  | plain =>
    rw [hmode] at hfinish
    exact Option.some.inj hfinish ▸ h.delimit
  | comment =>
    rw [hmode] at hfinish
    exact Option.some.inj hfinish ▸ h.delimit
  | escaped =>
    rw [hmode] at hfinish
    exact Option.some.inj hfinish ▸ (h.push .plain [.quoted backslash]).delimit
  | _ =>
    rw [hmode] at hfinish
    cases hfinish

/-- In a comment, there are no more tokens before an operator. -/
theorem read_comment {s : State} (hmode : s.mode = .comment) (hword : s.word = none)
    {text : Text} {tokens : List Token} (hfinish : (s.read text).finish = some tokens) :
    tokens = s.tokens ∨ ∃ c, s.tokens ++ [.operator c] <+: tokens := by
  induction text generalizing s with
  | nil =>
    left
    rw [read_nil, finish, hmode, delimit, hword] at hfinish
    exact (Option.some.inj hfinish).symm
  | cons c text ih =>
    rw [read_cons, step, hmode] at hfinish
    dsimp only at hfinish
    split_ifs at hfinish with hnewline
    · have hdelimit : s.delimit = s := by rw [delimit, hword]
      have hbegins := ((s.operate c).prefix_read text).trans (prefix_finish hfinish)
      rw [operate, hdelimit] at hbegins
      exact Or.inr ⟨c, hbegins⟩
    · exact ih hmode hword hfinish

end State

/-! ## Text in double quotes -/

/-- A text with a backslash before each character that has a meaning in double quotes. -/
def escapeDouble (text : Text) : Text :=
  text.flatMap fun c => if isEscapable c then [backslash, c] else [c]

theorem State.step_double {s : State} (hmode : s.mode = .double) {c : Char}
    (hc : isEscapable c = false) : s.step c = s.push .double [.quoted c] := by
  have hquote : c ≠ doubleQuote := fun heq => by simp [isEscapable, heq] at hc
  have hbackslash : c ≠ backslash := fun heq => by simp [isEscapable, heq] at hc
  rw [step, hmode]
  dsimp only
  rw [doubleStep, if_neg hquote, if_neg hbackslash, hc, if_neg Bool.false_ne_true]

theorem State.read_escaped {s : State} (hmode : s.mode = .double) {c : Char}
    (hc : isEscapable c = true) : s.read [backslash, c] = s.push .double [.quoted c] := by
  have hbackslash : s.step backslash = { s with mode := .doubleEscaped } := by
    rw [step, hmode]
    rfl
  have hnewline : c ≠ '\n' := by
    intro heq
    subst heq
    revert hc
    decide
  rw [read_cons, read_cons, read_nil, hbackslash, step]
  dsimp only
  rw [if_neg hnewline, if_pos hc]
  rfl

theorem State.read_escapeDouble {s : State} (hmode : s.mode = .double) {pieces : List Piece}
    (hword : s.word = some pieces) (text : Text) :
    s.read (escapeDouble text) = { s with word := some (pieces ++ text.map .quoted) } := by
  induction text generalizing s pieces with
  | nil =>
    rw [List.map_nil, List.append_nil, ← hword]
    rfl
  | cons c text ih =>
    have hhead : s.read (if isEscapable c then [backslash, c] else [c]) =
        s.push .double [.quoted c] := by
      cases hc : isEscapable c with
      | true => exact s.read_escaped hmode hc
      | false => exact s.step_double hmode hc
    have hpushed : (s.push .double [.quoted c]).word = some (pieces ++ [.quoted c]) := by
      rw [push, hword]
      rfl
    rw [escapeDouble, List.flatMap_cons, ← escapeDouble, read_append, hhead, ih rfl hpushed,
      List.map_cons, List.append_assoc, List.singleton_append, push, ← hmode]

/-- A text in double quotes is a word, or a part of one. -/
theorem State.read_quoted {s : State} (hmode : s.mode = .plain) (text : Text) :
    s.read (doubleQuote :: (escapeDouble text ++ [doubleQuote])) =
      s.push .plain (text.map .quoted) := by
  have hopen : s.step doubleQuote = s.push .double [] := by
    rw [step, hmode]
    dsimp only
    rw [plainStep, if_neg (by decide), if_neg (by decide), if_neg fun h => absurd h.1 (by decide),
      if_neg (by decide), if_pos rfl]
  rw [read_cons, hopen, read_append, read_escapeDouble rfl rfl, List.append_nil]
  rfl

/-! ## Ordinary text -/

/-- The character has no meaning outside of quotes, but perhaps at the start of a word. -/
def Ordinary (c : Char) : Prop :=
  isBlank c = false ∧ isOperator c = false ∧ c ≠ singleQuote ∧ c ≠ doubleQuote ∧
    c ≠ backslash ∧ isActive c = false

theorem State.step_ordinary {s : State} (hmode : s.mode = .plain) {c : Char} (hc : Ordinary c)
    (hstart : c = '#' → s.word ≠ none) : s.step c = s.push .plain [.literal c] := by
  obtain ⟨hblank, hoperator, hsingle, hdouble, hbackslash, hactive⟩ := hc
  have hcomment : ¬ (c = '#' ∧ s.word = none) := fun h => hstart h.1 h.2
  rw [step, hmode]
  dsimp only
  rw [plainStep, hblank, if_neg Bool.false_ne_true, hoperator, if_neg Bool.false_ne_true,
    if_neg hcomment, if_neg hsingle, if_neg hdouble, if_neg hbackslash, hactive,
    if_neg Bool.false_ne_true]

/-- Ordinary text that does not start a comment is a word, or a part of one. -/
theorem State.read_ordinary {s : State} (hmode : s.mode = .plain) {text : Text}
    (hne : text ≠ []) (hordinary : ∀ c ∈ text, Ordinary c)
    (hstart : text.head? = some '#' → s.word ≠ none) :
    s.read text = s.push .plain (text.map .literal) := by
  induction text generalizing s with
  | nil => exact absurd rfl hne
  | cons c text ih =>
    rw [List.forall_mem_cons] at hordinary
    have hstep := s.step_ordinary hmode hordinary.1 fun heq => hstart (congrArg some heq)
    rw [read_cons, hstep]
    cases text with
    | nil => rfl
    | cons c' text =>
      rw [ih rfl (List.cons_ne_nil _ _) hordinary.2 fun _ => Option.some_ne_none _]
      exact push_push s .plain .plain _ _

/-! ## Values -/

section Values

variable {options : Options}

/-- A tilde-prefix may start here. -/
def startsTilde (pieces : List Piece) : Bool := decide (pieces.head? = some (.literal '~'))

/-- The shell expands a tilde-prefix of the word. -/
def Options.hasTilde (options : Options) (pieces : List Piece) : Bool :=
  match options.assignmentTildes, assignment? pieces with
  | true, some (_, value) => (value.splitOn (.literal ':')).any startsTilde
  | _, _ => startsTilde pieces

theorem append_of_assignment? {pieces target value : List Piece}
    (hassignment : assignment? pieces = some (target, value)) : target ++ value = pieces := by
  unfold assignment? at hassignment
  have hsplit := List.takeWhile_append_dropWhile (p := isNamePiece) (l := pieces)
  dsimp only at hassignment
  split_ifs at hassignment
  split at hassignment
  · rename_i value' hrest
    obtain ⟨rfl, rfl⟩ := Prod.mk.inj (Option.some.inj hassignment)
    rw [List.append_assoc, List.singleton_append, ← hrest, hsplit]
  · rename_i value' hrest
    obtain ⟨rfl, rfl⟩ := Prod.mk.inj (Option.some.inj hassignment)
    rw [List.append_assoc, List.cons_append, List.singleton_append, ← hrest, hsplit]
  · cases hassignment

theorem expandTilde_of_not_startsTilde (env : Environment) {pieces : List Piece}
    (hnot : startsTilde pieces = false) : expandTilde env pieces = pieces := by
  unfold expandTilde
  split
  · rename_i rest
    cases hnot
  · rfl

/-- Where no login name has a home directory, nothing is expanded. -/
theorem expandTilde_none (pieces : List Piece) : expandTilde (fun _ => none) pieces = pieces := by
  unfold expandTilde
  split
  · dsimp only
    split_ifs <;> rfl
  · rfl

/-- Where no tilde-prefix is expanded, nothing is. -/
theorem Options.expand_of_not_hasTilde (env : Environment) {pieces : List Piece}
    (hnot : options.hasTilde pieces = false) : options.expand env pieces = pieces := by
  unfold hasTilde at hnot
  unfold expand
  cases hflag : options.assignmentTildes with
  | false =>
    rw [hflag] at hnot
    exact expandTilde_of_not_startsTilde env hnot
  | true =>
    rw [hflag] at hnot
    cases hassignment : assignment? pieces with
    | none =>
      rw [hassignment] at hnot
      exact expandTilde_of_not_startsTilde env hnot
    | some split =>
      obtain ⟨target, value⟩ := split
      rw [hassignment] at hnot
      have hsegments : ∀ segment ∈ value.splitOn (.literal ':'), expandTilde env segment = segment :=
        fun segment hsegment => expandTilde_of_not_startsTilde env
          (Bool.eq_false_iff.mpr (List.any_eq_false.mp hnot segment hsegment))
      dsimp only
      rw [List.map_congr_left hsegments, List.map_id', List.intercalate_splitOn,
        append_of_assignment? hassignment]

/-- Where no login name has a home directory, nothing is expanded. -/
theorem Options.expand_none (pieces : List Piece) :
    options.expand (fun _ => none) pieces = pieces := by
  unfold expand
  split
  · rename_i target value _ hassignment
    rw [List.map_congr_left fun segment _ => expandTilde_none segment, List.map_id',
      List.intercalate_splitOn, append_of_assignment? hassignment]
  · exact expandTilde_none pieces

theorem expandTilde_of_startsTilde {pieces : List Piece}
    (hliteral : ∀ p ∈ pieces, p.isLiteral = true) (hstarts : startsTilde pieces = true) :
    (expandTilde (fun _ => some []) pieces).length < pieces.length := by
  cases pieces with
  | nil => cases hstarts
  | cons p rest =>
    obtain rfl := Option.some.inj (of_decide_eq_true hstarts)
    rw [List.forall_mem_cons] at hliteral
    have hlogin : (rest.takeWhile fun p => decide (p ≠ Piece.literal '/')).all Piece.isLiteral :=
      List.all_eq_true.mpr fun p hp => hliteral.2 p (List.takeWhile_subset _ hp)
    rw [expandTilde]
    dsimp only
    rw [if_pos hlogin, List.map_nil, List.nil_append, List.length_cons]
    exact Nat.lt_succ_of_le (List.dropWhile_sublist _).length_le

theorem length_expandTilde_le {pieces : List Piece} (hliteral : ∀ p ∈ pieces, p.isLiteral = true) :
    (expandTilde (fun _ => some []) pieces).length ≤ pieces.length := by
  cases hstarts : startsTilde pieces with
  | true => exact (expandTilde_of_startsTilde hliteral hstarts).le
  | false => rw [expandTilde_of_not_startsTilde _ hstarts]

theorem length_intercalate_map_le {A : Type*} (sep : List A) (f : List A → List A)
    {segments : List (List A)} (hle : ∀ segment ∈ segments, (f segment).length ≤ segment.length) :
    (sep.intercalate (segments.map f)).length ≤ (sep.intercalate segments).length := by
  induction segments with
  | nil => exact le_rfl
  | cons segment segments ih =>
    rw [List.forall_mem_cons] at hle
    cases segments with
    | nil =>
      rw [List.map_singleton, List.intercalate_singleton, List.intercalate_singleton]
      exact hle.1
    | cons segment' segments =>
      have hrest := ih hle.2
      rw [List.map_cons] at hrest ⊢
      rw [List.map_cons, List.intercalate_cons_cons, List.intercalate_cons_cons]
      simp only [List.length_append]
      omega

theorem length_intercalate_map_lt {A : Type*} (sep : List A) (f : List A → List A)
    {segments : List (List A)} (hle : ∀ segment ∈ segments, (f segment).length ≤ segment.length)
    (hlt : ∃ segment ∈ segments, (f segment).length < segment.length) :
    (sep.intercalate (segments.map f)).length < (sep.intercalate segments).length := by
  induction segments with
  | nil =>
    obtain ⟨_, hmem, _⟩ := hlt
    cases hmem
  | cons segment segments ih =>
    rw [List.forall_mem_cons] at hle
    cases segments with
    | nil =>
      obtain ⟨segment', hmem, hlt⟩ := hlt
      obtain rfl := List.mem_singleton.mp hmem
      rw [List.map_singleton, List.intercalate_singleton, List.intercalate_singleton]
      exact hlt
    | cons segment' segments =>
      have hrest := length_intercalate_map_le sep f hle.2
      have hsum : (f segment).length < segment.length ∨
          (sep.intercalate ((segment' :: segments).map f)).length <
            (sep.intercalate (segment' :: segments)).length := by
        obtain ⟨segment'', hmem, hlt⟩ := hlt
        cases List.mem_cons.mp hmem with
        | inl heq => exact Or.inl (heq ▸ hlt)
        | inr htail => exact Or.inr (ih hle.2 ⟨segment'', htail, hlt⟩)
      rw [List.map_cons] at hrest hsum ⊢
      rw [List.map_cons, List.intercalate_cons_cons, List.intercalate_cons_cons]
      simp only [List.length_append]
      have hhead := hle.1
      omega

theorem subset_intercalate {A : Type*} (sep : List A) {segments : List (List A)}
    {segment : List A} (hsegment : segment ∈ segments) : segment ⊆ sep.intercalate segments := by
  induction segments with
  | nil => cases hsegment
  | cons segment' segments ih =>
    cases segments with
    | nil =>
      rw [List.mem_singleton.mp hsegment, List.intercalate_singleton]
      exact List.Subset.refl _
    | cons segment'' segments =>
      rw [List.intercalate_cons_cons, List.append_assoc]
      cases List.mem_cons.mp hsegment with
      | inl heq =>
        rw [heq]
        exact List.subset_append_left _ _
      | inr htail =>
        exact fun a ha => List.mem_append_right _ (List.mem_append_right _ (ih htail ha))

/-- A tilde-prefix can be expanded to less than it is. -/
theorem Options.length_expand_lt {pieces : List Piece}
    (hliteral : ∀ p ∈ pieces, p.isLiteral = true) (htilde : options.hasTilde pieces = true) :
    (options.expand (fun _ => some []) pieces).length < pieces.length := by
  unfold hasTilde at htilde
  unfold expand
  cases hflag : options.assignmentTildes with
  | false =>
    rw [hflag] at htilde
    exact expandTilde_of_startsTilde hliteral htilde
  | true =>
    rw [hflag] at htilde
    cases hassignment : assignment? pieces with
    | none =>
      rw [hassignment] at htilde
      exact expandTilde_of_startsTilde hliteral htilde
    | some split =>
      obtain ⟨target, value⟩ := split
      rw [hassignment] at htilde
      have happend := append_of_assignment? hassignment
      have hsegments : ∀ segment ∈ value.splitOn (.literal ':'), ∀ p ∈ segment,
          p.isLiteral = true := by
        intro segment hsegment p hp
        apply hliteral
        have hvalue := subset_intercalate [Piece.literal ':'] hsegment hp
        rw [List.intercalate_splitOn] at hvalue
        rw [← happend]
        exact List.mem_append_right _ hvalue
      obtain ⟨segment, hsegment, hstarts⟩ := List.any_eq_true.mp htilde
      have hlt := length_intercalate_map_lt [Piece.literal ':'] (expandTilde fun _ => some [])
        (fun segment hsegment => length_expandTilde_le (hsegments segment hsegment))
        ⟨segment, hsegment, expandTilde_of_startsTilde (hsegments segment hsegment) hstarts⟩
      rw [List.intercalate_splitOn] at hlt
      rw [← happend, List.length_append, List.length_append]
      exact Nat.add_lt_add_left hlt _

/-! ## Words of quoted and of literal characters -/

theorem mapM_char?_map {f : Char → Piece} (hf : ∀ c, (f c).char? = some c) (text : Text) :
    (text.map f).mapM Piece.char? = some text := by
  induction text with
  | nil => rfl
  | cons c text ih => rw [List.map_cons, List.mapM_cons, hf, ih]; rfl

theorem length_of_mapM_eq_some {A B : Type*} {f : A → Option B} {l : List A} {l' : List B}
    (hmap : l.mapM f = some l') : l'.length = l.length := by
  induction l generalizing l' with
  | nil =>
    obtain rfl := Option.some.inj hmap
    rfl
  | cons a l ih =>
    rw [List.mapM_cons] at hmap
    obtain ⟨b, hb, hrest⟩ := Option.bind_eq_some_iff.mp hmap
    obtain ⟨bs, hbs, hpure⟩ := Option.bind_eq_some_iff.mp hrest
    obtain rfl := Option.some.inj hpure
    rw [List.length_cons, List.length_cons, ih hbs]

/-- A word whose characters were all quoted is what they are. -/
theorem Options.value_quoted (env : Environment) (text : Text) :
    options.value env (.word (text.map .quoted)) = some text := by
  have hassignment : assignment? (text.map .quoted) = none := by
    cases text <;> rfl
  have hstarts : startsTilde (text.map .quoted) = false := by
    cases text <;> rfl
  have hnot : options.hasTilde (text.map .quoted) = false := by
    rw [hasTilde, hassignment]
    cases options.assignmentTildes <;> exact hstarts
  rw [value, expand_of_not_hasTilde env hnot, mapM_char?_map fun _ => rfl]

/-- A word of literal characters is what they are in every environment, if and only if no
tilde-prefix is expanded. -/
theorem Options.value_literal_iff (text : Text) :
    (∀ env, options.value env (.word (text.map .literal)) = some text) ↔
      options.hasTilde (text.map .literal) = false := by
  constructor
  · intro hvalue
    by_contra htilde
    have hliteral : ∀ p ∈ text.map Piece.literal, p.isLiteral = true := by
      intro p hp
      obtain ⟨c, -, rfl⟩ := List.mem_map.mp hp
      rfl
    have hlt := options.length_expand_lt hliteral (Bool.eq_true_of_not_eq_false htilde)
    have hlength := length_of_mapM_eq_some (hvalue fun _ => some [])
    rw [List.length_map] at hlt
    omega
  · intro hnot env
    rw [value, expand_of_not_hasTilde env hnot, mapM_char?_map fun _ => rfl]

end Values

end Jepsen.Library.Shell
