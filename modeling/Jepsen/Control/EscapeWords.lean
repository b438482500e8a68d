/-
# Which strings survive the shell

A string in quotes is one word, whatever it is. One without quotes is itself unless it
has a pipe or a single quote, starts with a number sign, or has a tilde where the shell
expands it; then no escaped arguments around it can make up for that.
-/

import Jepsen.Control.Escape

namespace Jepsen.Control

open Jepsen.Library Jepsen.Library.Shell

variable {options : Options}

/-- The string is put into quotes, or has nothing that means something to the shell. -/
def Clean (options : Options) (s : Text) : Prop :=
  s = [] ∨ (∃ c ∈ s, requiresQuotes c = true) ∨
    ('|' ∉ s ∧ singleQuote ∉ s ∧ s.head? ≠ some '#' ∧
      options.hasTilde (s.map .literal) = false)

/-! ## Strings that are clean -/

theorem escapeQuoted_eq (s : Text) : escapeQuoted s = escapeDouble s := by
  unfold escapeQuoted escapeDouble
  congr 1
  funext c
  have hiff : c ∈ [backslash, '$', backquote, doubleQuote] ↔ isEscapable c = true := by
    simp only [isEscapable, decide_eq_true_iff, List.mem_cons, List.not_mem_nil, or_false]
    tauto
  simp only [hiff]

/-- The string is put into quotes. -/
def quotes (s : Text) : Bool := s.isEmpty || s.any requiresQuotes

theorem escapeString_of_quotes {s : Text} (hquotes : quotes s = true) :
    escapeString s = doubleQuote :: (escapeDouble s ++ [doubleQuote]) := by
  unfold escapeString
  by_cases hempty : s = []
  · subst hempty
    rfl
  · have hany : s.any requiresQuotes = true := by
      simpa [quotes, hempty] using hquotes
    rw [if_neg hempty, if_pos hany, escapeQuoted_eq]

theorem ne_nil_of_not_quotes {s : Text} (hquotes : quotes s = false) : s ≠ [] := by
  intro hempty
  subst hempty
  cases hquotes

theorem escapeString_of_not_quotes {s : Text} (hquotes : quotes s = false) :
    escapeString s = s := by
  have hany := (Bool.or_eq_false_iff.mp hquotes).2
  rw [escapeString, if_neg (ne_nil_of_not_quotes hquotes), hany, if_neg Bool.false_ne_true]

theorem not_requiresQuotes {s : Text} (hquotes : quotes s = false) {c : Char} (hc : c ∈ s) :
    requiresQuotes c = false :=
  Bool.eq_false_iff.mpr (List.any_eq_false.mp (Bool.or_eq_false_iff.mp hquotes).2 c hc)

theorem ordinary_of_not_requiresQuotes {c : Char} (hquotes : requiresQuotes c = false)
    (hpipe : c ≠ '|') (hsingle : c ≠ singleQuote) : Ordinary c := by
  simp only [requiresQuotes, decide_eq_false_iff_not, List.mem_cons, List.not_mem_nil, or_false,
    not_or] at hquotes
  unfold Ordinary isBlank isOperator isActive
  simp only [decide_eq_false_iff_not, List.mem_cons, List.not_mem_nil, or_false, not_or]
  tauto

/-- A clean string either is put into quotes or means nothing to the shell. -/
theorem clean_iff {s : Text} : Clean options s ↔ quotes s = true ∨
    ('|' ∉ s ∧ singleQuote ∉ s ∧ s.head? ≠ some '#' ∧
      options.hasTilde (s.map .literal) = false) := by
  rw [Clean, ← or_assoc, quotes, Bool.or_eq_true, List.isEmpty_iff, List.any_eq_true]

/-- The word a clean string is read as. -/
def pieces (s : Text) : List Piece := if quotes s then s.map .quoted else s.map .literal

/-- Escaped, a clean string is read as one word. -/
theorem read_escapeString {s : Text} (hs : Clean options s) (tokens : List Token) :
    State.read { tokens := tokens } (escapeString s) =
      { word := some (pieces s), tokens := tokens } := by
  unfold pieces
  cases hquotes : quotes s with
  | true =>
    rw [escapeString_of_quotes hquotes, State.read_quoted rfl]
    rfl
  | false =>
    cases clean_iff.mp hs with
    | inl htrue => rw [hquotes] at htrue; cases htrue
    | inr hplain =>
      obtain ⟨hpipe, hsingle, hstart, -⟩ := hplain
      have hordinary : ∀ c ∈ s, Ordinary c := fun c hc =>
        ordinary_of_not_requiresQuotes (not_requiresQuotes hquotes hc)
          (fun heq => hpipe (heq ▸ hc)) fun heq => hsingle (heq ▸ hc)
      rw [escapeString_of_not_quotes hquotes,
        State.read_ordinary rfl (ne_nil_of_not_quotes hquotes) hordinary fun h => absurd h hstart]
      rfl

/-- The word has the string for its value. -/
theorem value_pieces {s : Text} (hs : Clean options s) (env : Environment) :
    options.value env (.word (pieces s)) = some s := by
  unfold pieces
  cases hquotes : quotes s with
  | true => exact options.value_quoted env s
  | false =>
    cases clean_iff.mp hs with
    | inl htrue => rw [hquotes] at htrue; cases htrue
    | inr hplain => exact options.value_literal_iff s |>.mpr hplain.2.2.2 env

/-! ## Arguments one after another -/

/-- The text behind the first of some arguments. -/
def textAfter (rest : List Text) : Text := rest.flatMap fun s => ' ' :: escapeString s

/-- The text of some arguments. -/
def textOf : List Text → Text
  | [] => []
  | s :: rest => escapeString s ++ textAfter rest

theorem intercalate_escapeString (args : List Text) :
    [' '].intercalate (args.map escapeString) = textOf args := by
  cases args with
  | nil => rfl
  | cons s rest =>
    change _ = escapeString s ++ textAfter rest
    induction rest generalizing s with
    | nil => simp [textAfter]
    | cons s' rest ih =>
      rw [List.map_cons, List.map_cons, List.intercalate_cons_cons, ← List.map_cons, ih]
      simp [textAfter]

/-- Behind a word, the rest of the arguments is read as if the word had ended. -/
theorem finish_read_textAfter (tokens : List Token) (pieces : List Piece) (rest : List Text) :
    (State.read { word := some pieces, tokens := tokens } (textAfter rest)).finish =
      (State.read { tokens := tokens ++ [.word pieces] } (textOf rest)).finish := by
  cases rest with
  | nil => rfl
  | cons s rest => rfl

/-! ## Strings that are not -/

theorem mem_of_mapM_eq_some {A B : Type*} {f : A → Option B} {l : List A} {l' : List B}
    (hmap : l.mapM f = some l') {b : B} : b ∈ l' ↔ ∃ a ∈ l, f a = some b := by
  induction l generalizing l' with
  | nil =>
    obtain rfl := Option.some.inj hmap
    simp
  | cons a l ih =>
    rw [List.mapM_cons] at hmap
    obtain ⟨b', hb', hrest⟩ := Option.bind_eq_some_iff.mp hmap
    obtain ⟨bs, hbs, hpure⟩ := Option.bind_eq_some_iff.mp hrest
    obtain rfl := Option.some.inj hpure
    rw [List.mem_cons, ih hbs]
    simp [hb', eq_comm]

/-- A line of words has no operators. -/
theorem not_operator {env : Environment} {tokens : List Token} {words : List Text}
    (hwords : tokens.mapM (options.value env) = some words) (c : Char) :
    Token.operator c ∉ tokens := by
  intro hmem
  induction tokens generalizing words with
  | nil => cases hmem
  | cons token tokens ih =>
    rw [List.mapM_cons] at hwords
    obtain ⟨word, hword, hrest⟩ := Option.bind_eq_some_iff.mp hwords
    obtain ⟨words', hwords', -⟩ := Option.bind_eq_some_iff.mp hrest
    cases List.mem_cons.mp hmem with
    | inl heq =>
      subst heq
      cases hword
    | inr htail => exact ih hwords' htail

/-- The value of the token behind some tokens is the word behind their words. -/
theorem value_of_begins {env : Environment} {tokens tokens' : List Token} {token : Token}
    {words rest : List Text} {s : Text} (hbefore : tokens.mapM (options.value env) = some words)
    (hwords : tokens'.mapM (options.value env) = some (words ++ s :: rest))
    (hbegins : tokens ++ [token] <+: tokens') : options.value env token = some s := by
  obtain ⟨more, rfl⟩ := hbegins
  rw [List.append_assoc, List.mapM_append, hbefore] at hwords
  obtain ⟨words', hwords', happ⟩ := Option.bind_eq_some_iff.mp
    ((Option.bind_some words _).symm.trans hwords)
  rw [List.singleton_append, List.mapM_cons] at hwords'
  obtain ⟨word, hword, hrest⟩ := Option.bind_eq_some_iff.mp hwords'
  obtain ⟨words'', -, hpure⟩ := Option.bind_eq_some_iff.mp hrest
  obtain rfl := Option.some.inj hpure
  have htail := List.append_cancel_left (Option.some.inj happ)
  rw [hword, (List.cons.inj htail).1]

/-- No word was delimited since some tokens, and no single quote is left in the current one;
a single quote may be open. -/
def Open (tokens : List Token) (s : State) : Prop :=
  s.tokens = tokens ∧ (s.mode = .plain ∨ s.mode = .single ∧ s.word ≠ none) ∧
    ∀ p ∈ s.word.getD [], p.char? ≠ some singleQuote

theorem Open.push {tokens : List Token} {s : State} (h : Open tokens s) {mode : Mode}
    (hmode : mode = .plain ∨ mode = .single) {pieces : List Piece}
    (hpieces : ∀ p ∈ pieces, p.char? ≠ some singleQuote) :
    Open tokens (s.push mode pieces) ∧ (s.push mode pieces).word ≠ none := by
  have hword : (s.push mode pieces).word ≠ none := Option.some_ne_none _
  refine ⟨⟨h.1, hmode.imp_right fun hsingle => ⟨hsingle, hword⟩, fun p hp => ?_⟩, hword⟩
  cases List.mem_append.mp hp with
  | inl hbefore => exact h.2.2 p hbefore
  | inr hnew => exact hpieces p hnew

/-- A character that does not require quotes is an operator, or leaves the word open. -/
theorem Open.step {tokens : List Token} {s : State} (h : Open tokens s) {c : Char}
    (hc : requiresQuotes c = false) (hstart : c = '#' → s.word ≠ none) :
    (∃ c', Token.operator c' ∈ (s.step c).tokens) ∨
      Open tokens (s.step c) ∧ (s.step c).word ≠ none := by
  have hchar : ∀ (f : Char → Piece), (∀ c, (f c).char? = some c) → c ≠ singleQuote →
      ∀ p ∈ [f c], p.char? ≠ some singleQuote := by
    intro f hf hsingle p hp
    rw [List.mem_singleton.mp hp, hf]
    exact fun heq => hsingle (Option.some.inj heq)
  cases h.2.1 with
  | inl hplain =>
    by_cases hpipe : c = '|'
    · subst hpipe
      left
      refine ⟨'|', ?_⟩
      rw [State.step, hplain]
      exact List.mem_append_right _ (List.mem_singleton_self _)
    · right
      by_cases hsingle : c = singleQuote
      · subst hsingle
        have hstep : s.step singleQuote = s.push .single [] := by
          rw [State.step, hplain]
          dsimp only
          rw [State.plainStep, if_neg (by decide), if_neg (by decide),
            if_neg fun h => absurd h.1 (by decide), if_pos rfl]
        rw [hstep]
        exact h.push (Or.inr rfl) fun _ hp => absurd hp List.not_mem_nil
      · rw [State.step_ordinary hplain (ordinary_of_not_requiresQuotes hc hpipe hsingle) hstart]
        exact h.push (Or.inl rfl) (hchar .literal (fun _ => rfl) hsingle)
  | inr hopen =>
    right
    rw [State.step, hopen.1]
    dsimp only
    by_cases hsingle : c = singleQuote
    · rw [if_pos hsingle]
      exact ⟨⟨h.1, Or.inl rfl, h.2.2⟩, hopen.2⟩
    · rw [if_neg hsingle]
      exact h.push (Or.inr rfl) (hchar .quoted (fun _ => rfl) hsingle)

/-- A text that is left without quotes has an operator, or leaves its word open. -/
theorem Open.read {tokens : List Token} {s : State} (h : Open tokens s) {text : Text}
    (hne : text ≠ []) (htext : ∀ c ∈ text, requiresQuotes c = false)
    (hstart : text.head? = some '#' → s.word ≠ none) :
    (∃ c, Token.operator c ∈ (s.read text).tokens) ∨
      Open tokens (s.read text) ∧ (s.read text).word ≠ none := by
  induction text generalizing s with
  | nil => exact absurd rfl hne
  | cons c text ih =>
    rw [List.forall_mem_cons] at htext
    rw [State.read_cons]
    cases h.step htext.1 fun heq => hstart (congrArg some heq) with
    | inl hoperator =>
      obtain ⟨c', hc'⟩ := hoperator
      exact Or.inl ⟨c', ((s.step c).prefix_read text).subset hc'⟩
    | inr hopen =>
      cases text with
      | nil => exact Or.inr hopen
      | cons c' text => exact ih hopen.1 (List.cons_ne_nil _ _) htext.2 fun _ => hopen.2

/-- Arguments whose first is left without quotes are not read as they are, if it starts with a
number sign. -/
theorem not_words_of_comment {tokens tokens' : List Token} {s : Text} {rest : List Text}
    (hquotes : quotes s = false) (hstart : s.head? = some '#')
    (hfinish : (State.read { tokens := tokens } (escapeString s ++ textAfter rest)).finish =
      some tokens') {env : Environment} {words : List Text}
    (hbefore : tokens.mapM (options.value env) = some words) :
    tokens'.mapM (options.value env) ≠ some (words ++ s :: rest) := by
  intro hwords
  cases s with
  | nil => cases hstart
  | cons c s =>
    obtain rfl := Option.some.inj hstart
    rw [escapeString_of_not_quotes hquotes, List.cons_append, State.read_cons] at hfinish
    cases State.read_comment rfl rfl hfinish with
    | inl hnone =>
      have hlength := length_of_mapM_eq_some hbefore
      have hlength' := length_of_mapM_eq_some hwords
      rw [hnone, List.length_append, List.length_cons] at hlength'
      change _ = tokens.length at hlength'
      omega
    | inr hoperator =>
      obtain ⟨c, hbegins⟩ := hoperator
      have hmem : Token.operator c ∈ tokens ++ [Token.operator c] :=
        List.mem_append_right _ (List.mem_singleton_self _)
      exact not_operator hwords c (hbegins.subset hmem)

/-- Nor if it has a single quote. -/
theorem not_words_of_singleQuote {tokens tokens' : List Token} {s : Text} {rest : List Text}
    (hquotes : quotes s = false) (hstart : s.head? ≠ some '#') (hsingle : singleQuote ∈ s)
    (hfinish : (State.read { tokens := tokens } (escapeString s ++ textAfter rest)).finish =
      some tokens') {words : List Text}
    (hbefore : tokens.mapM (options.value fun _ => none) = some words) :
    tokens'.mapM (options.value fun _ => none) ≠ some (words ++ s :: rest) := by
  intro hwords
  rw [escapeString_of_not_quotes hquotes, State.read_append] at hfinish
  have hopen : Open tokens { tokens := tokens } :=
    ⟨rfl, Or.inl rfl, fun _ hp => absurd hp List.not_mem_nil⟩
  cases hopen.read (ne_nil_of_not_quotes hquotes) (fun c => not_requiresQuotes hquotes)
    fun h => absurd h hstart with
  | inl hoperator =>
    obtain ⟨c, hc⟩ := hoperator
    have hbegins := (State.prefix_read _ (textAfter rest)).trans (State.prefix_finish hfinish)
    exact not_operator hwords c (hbegins.subset hc)
  | inr hread =>
    obtain ⟨⟨htokens, hmode, hpieces⟩, hword⟩ := hread
    obtain ⟨pieces, hword⟩ := Option.ne_none_iff_exists'.mp hword
    generalize State.read { tokens := tokens } s = state at hfinish htokens hmode hpieces hword
    obtain ⟨mode, word, tokens⟩ := state
    obtain rfl : word = some pieces := hword
    cases htokens
    have hvalue : ∀ more, options.value (fun _ => none) (.word (pieces ++ more)) = some s →
        ∀ c, c ∈ s ↔ ∃ p ∈ pieces ++ more, p.char? = some c := by
      intro more hvalue c
      rw [Options.value, Options.expand_none] at hvalue
      exact mem_of_mapM_eq_some hvalue
    cases hmode with
    | inl hplain =>
      -- the word ends with the string, and has lost its single quotes
      obtain rfl : mode = .plain := hplain
      rw [finish_read_textAfter] at hfinish
      have hbegins := (State.prefix_read _ (textOf rest)).trans (State.prefix_finish hfinish)
      have hs := hvalue [] (by rw [List.append_nil]; exact value_of_begins hbefore hwords hbegins)
      rw [List.append_nil] at hs
      obtain ⟨p, hp, hchar⟩ := (hs singleQuote).mp hsingle
      exact hpieces p hp hchar
    | inr hopen =>
      obtain rfl : mode = .single := hopen.1
      cases rest with
      | nil => cases hfinish
      | cons s' rest =>
        -- the blank behind the string is in the word
        have hstarted : State.Started tokens (pieces ++ [.quoted ' '])
            (State.push ⟨.single, some pieces, tokens⟩ .single [.quoted ' ']) :=
          Or.inl ⟨rfl, [], (congrArg some (List.append_nil _)).symm⟩
        obtain ⟨more, hbegins⟩ := (hstarted.read (escapeString s' ++ textAfter rest)).finish hfinish
        have hs := value_of_begins hbefore hwords hbegins
        rw [List.append_assoc] at hs
        have hblank : ' ' ∈ s := (hvalue _ hs ' ').mpr
          ⟨.quoted ' ', List.mem_append_right _ List.mem_cons_self, rfl⟩
        exact absurd (not_requiresQuotes hquotes hblank) (by decide)

/-- Nor if it has a pipe. -/
theorem not_words_of_pipe {tokens tokens' : List Token} {s : Text} {rest : List Text}
    (hquotes : quotes s = false) (hstart : s.head? ≠ some '#') (hsingle : singleQuote ∉ s)
    (hpipe : '|' ∈ s)
    (hfinish : (State.read { tokens := tokens } (escapeString s ++ textAfter rest)).finish =
      some tokens') {env : Environment} {words : List Text} :
    tokens'.mapM (options.value env) ≠ some words := by
  intro hwords
  obtain ⟨before, after, hsplit, hnot⟩ := List.eq_append_cons_of_mem hpipe
  have hmem : ∀ c ∈ before, c ∈ s := fun c hc => hsplit ▸ List.mem_append_left _ hc
  have hordinary : ∀ c ∈ before, Ordinary c := fun c hc =>
    ordinary_of_not_requiresQuotes (not_requiresQuotes hquotes (hmem c hc))
      (fun heq => hnot (heq ▸ hc)) fun heq => hsingle (heq ▸ hmem c hc)
  have hplain : (State.read { tokens := tokens } before).mode = .plain := by
    cases before with
    | nil => rfl
    | cons c before =>
      have hhead : (c :: before).head? = some '#' → ({ tokens := tokens } : State).word ≠ none := by
        intro h
        rw [hsplit] at hstart
        exact absurd h hstart
      rw [State.read_ordinary rfl (List.cons_ne_nil _ _) hordinary hhead]
      rfl
  rw [escapeString_of_not_quotes hquotes, hsplit, List.append_assoc, State.read_append,
    List.cons_append, State.read_cons] at hfinish
  generalize State.read { tokens := tokens } before = state at hfinish hplain
  have hoperator : Token.operator '|' ∈ (state.step '|').tokens := by
    rw [State.step, hplain]
    exact List.mem_append_right _ (List.mem_singleton_self _)
  have hbegins := (State.prefix_read _ _).trans (State.prefix_finish hfinish)
  exact not_operator hwords '|' (hbegins.subset hoperator)

/-- If the arguments are read as they are, the first of them is clean. -/
theorem clean_of_words {tokens tokens' : List Token} {s : Text} {rest words : List Text}
    (hfinish : (State.read { tokens := tokens } (escapeString s ++ textAfter rest)).finish =
      some tokens')
    (hbefore : ∀ env, tokens.mapM (options.value env) = some words)
    (hwords : ∀ env, tokens'.mapM (options.value env) = some (words ++ s :: rest)) :
    Clean options s := by
  cases hquotes : quotes s with
  | true => exact clean_iff.mpr (Or.inl hquotes)
  | false =>
    have hstart : s.head? ≠ some '#' := fun hstart =>
      not_words_of_comment hquotes hstart hfinish (hbefore fun _ => none) (hwords _)
    have hsingle : singleQuote ∉ s := fun hsingle =>
      not_words_of_singleQuote hquotes hstart hsingle hfinish (hbefore _) (hwords _)
    have hpipe : '|' ∉ s := fun hpipe =>
      not_words_of_pipe hquotes hstart hsingle hpipe hfinish (hwords fun _ => none)
    have hordinary : ∀ c ∈ s, Ordinary c := fun c hc =>
      ordinary_of_not_requiresQuotes (not_requiresQuotes hquotes hc)
        (fun heq => hpipe (heq ▸ hc)) fun heq => hsingle (heq ▸ hc)
    rw [escapeString_of_not_quotes hquotes, State.read_append, State.read_ordinary rfl
      (ne_nil_of_not_quotes hquotes) hordinary fun h => absurd h hstart] at hfinish
    change (State.read { word := some (s.map .literal), tokens := tokens } _).finish = _ at hfinish
    rw [finish_read_textAfter] at hfinish
    have hbegins := (State.prefix_read _ (textOf rest)).trans (State.prefix_finish hfinish)
    have htilde := (options.value_literal_iff s).mp fun env =>
      value_of_begins (hbefore env) (hwords env) hbegins
    exact clean_iff.mpr (Or.inr ⟨hpipe, hsingle, hstart, htilde⟩)

/-! ## All arguments -/

/-- Behind some words, escaped arguments are read as they are if and only if they are clean. -/
theorem words_iff {tokens : List Token} {words : List Text}
    (hbefore : ∀ env, tokens.mapM (options.value env) = some words) (args : List Text) :
    (∀ env, ((State.read { tokens := tokens } (textOf args)).finish.bind fun tokens =>
        tokens.mapM (options.value env)) = some (words ++ args)) ↔
      ∀ s ∈ args, Clean options s := by
  induction args generalizing tokens words with
  | nil =>
    rw [List.append_nil]
    exact iff_of_true hbefore fun _ hs => absurd hs List.not_mem_nil
  | cons s rest ih =>
    rw [List.forall_mem_cons]
    by_cases hs : Clean options s
    · have hread : (State.read { tokens := tokens } (textOf (s :: rest))).finish =
          (State.read { tokens := tokens ++ [.word (pieces s)] } (textOf rest)).finish := by
        rw [textOf, State.read_append, read_escapeString hs, finish_read_textAfter]
      have hbefore' : ∀ env, (tokens ++ [Token.word (pieces s)]).mapM (options.value env) =
          some (words ++ [s]) := by
        intro env
        rw [List.mapM_append, hbefore, List.mapM_cons, value_pieces hs]
        rfl
      rw [hread, and_iff_right hs, ← ih hbefore', List.append_assoc, List.singleton_append]
    · refine iff_of_false (fun hwords => hs ?_) fun hclean => hs hclean.1
      obtain ⟨tokens', hfinish, -⟩ := Option.bind_eq_some_iff.mp (hwords fun _ => none)
      rw [textOf] at hfinish
      refine clean_of_words hfinish hbefore fun env => ?_
      have hwords' := hwords env
      rw [textOf, hfinish] at hwords'
      exact hwords'

/-- A line of escaped arguments is read as they are if and only if all are clean. -/
theorem reads_iff (args : List Text) :
    options.Reads (textOf args) args ↔ ∀ s ∈ args, Clean options s := by
  have hnone : ∀ env, ([] : List Token).mapM (options.value env) = some [] := fun _ => rfl
  exact words_iff hnone args

/-! ## Commands -/

theorem escapeAll_eq (args : List Text) :
    escapeAll (args.map .string) = args.map escapeString := by
  induction args with
  | nil => rfl
  | cons s args ih => rw [List.map_cons, escapeAll, ih, escape, List.map_cons]

/-- A letter, a digit, a dot, an underscore or a hyphen. -/
def isPortable (c : Char) : Bool := c.isAlphanum || ['.', '_', '-'].contains c

theorem isPortable_iff {c : Char} :
    isPortable c = true ↔ c.isAlphanum = true ∨ c ∈ ['.', '_', '-'] := by
  rw [isPortable, Bool.or_eq_true, List.contains_iff_mem]

/-- A login name is a text of portable characters. -/
theorem UserName.all_isPortable (user : UserName) : user.name.all isPortable = true :=
  List.all_eq_true.mpr fun c hc => isPortable_iff.mpr (user.portable c hc)

theorem portable_cases {c : Char} (hc : isPortable c = true) :
    requiresQuotes c = false ∧ c ≠ '|' ∧ c ≠ singleQuote ∧ c ≠ '#' ∧ c ≠ '~' ∧ c ≠ '=' ∧
      c ≠ '+' := by
  have hnot : ∀ c', isPortable c' = false → c ≠ c' := by
    intro c' hc' heq
    rw [← heq, hc] at hc'
    cases hc'
  refine ⟨?_, hnot _ rfl, hnot _ rfl, hnot _ rfl, hnot _ rfl, hnot _ rfl, hnot _ rfl⟩
  rw [requiresQuotes, decide_eq_false_iff_not]
  intro hmem
  have hall : ([backslash, '$', backquote, doubleQuote, '(', ')', '\x7b', '\x7d', '[', ']',
      '*', '?', '<', '>', '&', ';', ' ', '\t', '\n', '\x0b', '\x0c', '\r'].all
      fun c' => !isPortable c') = true := by rfl
  have hc' := List.all_eq_true.mp hall c hmem
  rw [hc] at hc'
  cases hc'

/-- A text of portable characters is left as it is. -/
theorem escapeString_of_portable {s : Text} (hne : s ≠ [])
    (hportable : s.all isPortable = true) : escapeString s = s := by
  apply escapeString_of_not_quotes
  rw [quotes, Bool.or_eq_false_iff]
  refine ⟨by simpa using hne, ?_⟩
  rw [List.any_eq_false]
  intro c hc
  rw [(portable_cases (List.all_eq_true.mp hportable c hc)).1]
  exact Bool.false_ne_true

/-- And it is read as it is. -/
theorem clean_of_portable {s : Text}
    (hportable : s.all isPortable = true) : Clean options s := by
  have hcases := fun c hc => portable_cases (List.all_eq_true.mp hportable c hc)
  have hhead : ∀ c, s.head? = some c → c ∈ s := fun c hc => List.mem_of_mem_head? hc
  have hstarts : startsTilde (s.map .literal) = false := by
    rw [startsTilde, decide_eq_false_iff_not, List.head?_map]
    intro hsome
    obtain ⟨c, hc, heq⟩ := Option.map_eq_some_iff.mp hsome
    exact (hcases c (hhead c hc)).2.2.2.2.1 (Piece.literal.inj heq)
  have hassignment : assignment? (s.map .literal) = none := by
    have hmem : ∀ p ∈ (s.map Piece.literal).dropWhile isNamePiece, p ≠ .literal '=' ∧
        p ≠ .literal '+' := by
      intro p hp
      obtain ⟨c, hc, rfl⟩ := List.mem_map.mp ((List.dropWhile_sublist _).subset hp)
      exact ⟨fun heq => (hcases c hc).2.2.2.2.2.1 (Piece.literal.inj heq),
        fun heq => (hcases c hc).2.2.2.2.2.2 (Piece.literal.inj heq)⟩
    unfold assignment?
    dsimp only
    split_ifs
    · split
      · rename_i hrest
        exact absurd rfl (hmem _ (hrest ▸ List.mem_cons_self)).1
      · rename_i hrest
        exact absurd rfl (hmem _ (hrest ▸ List.mem_cons_self)).2
      · rfl
    · rfl
  refine clean_iff.mpr (Or.inr ⟨fun h => (hcases _ h).2.1 rfl, fun h => (hcases _ h).2.2.1 rfl,
    fun h => (hcases _ (hhead _ h)).2.2.2.1 rfl, ?_⟩)
  rw [Options.hasTilde, hassignment]
  cases options.assignmentTildes <;> exact hstarts

/-- What `wrap-sudo` passes to `sudo`. -/
def sudoArguments (user : UserName) (cmd : Text) : List Text :=
  ["sudo".toList, "-k".toList, "-S".toList, "-u".toList, user.name, "bash".toList, "-c".toList, cmd]

theorem wrapSudo_eq (user : UserName) (cmd : Text) :
    (wrapSudo { sudoUser := some user.name } { cmd := cmd }).cmd =
      textOf (sudoArguments user cmd) := by
  have hsudo : escapeString "sudo".toList = "sudo".toList := by decide
  have hk : escapeString "-k".toList = "-k".toList := by decide
  have hS : escapeString "-S".toList = "-S".toList := by decide
  have hu : escapeString "-u".toList = "-u".toList := by decide
  have hbash : escapeString "bash".toList = "bash".toList := by decide
  have hc : escapeString "-c".toList = "-c".toList := by decide
  have huser := escapeString_of_portable user.nonempty user.all_isPortable
  rw [wrapSudo, sudoArguments, textOf, textAfter]
  simp only [List.flatMap_cons, List.flatMap_nil, hsudo, hk, hS, hu, hbash, hc, huser]
  simp

end Jepsen.Control
