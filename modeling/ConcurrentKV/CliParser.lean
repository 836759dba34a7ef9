import Mathlib.Data.List.Forall2
import ConcurrentKV.CliTokens

/-! `CliParser::Parse`. The commands are those of a small grammar over the words of the input, up
to the case of the verbs; everything else is reported as invalid. -/
namespace ConcurrentKV
open ByteCodec Words

inductive CommandType where
  | invalid
  | set
  | get
  | del
  | clearPersistence
  | compactPersistence
  | info
  | help
  | exit
  deriving DecidableEq, Repr

structure Command where
  type : CommandType := .invalid
  key : Bytes := []
  value : Bytes := []
  errorMessage : String := ""
  deriving DecidableEq, Repr

def Command.isValid (command : Command) : Bool := command.type != .invalid

def makeInvalidCommand (message : String) : Command := { errorMessage := message }

/-- The bytes of a text in ASCII. -/
def ascii (text : String) : Bytes := text.toList.map fun c => UInt8.ofNat c.toNat

def blank : UInt8 := 0x20

/-- The loop of `JoinTokens`. -/
def joinLoop (tokens : List Bytes) (beginIndex index : ℕ) (joined : Bytes) : Bytes :=
  if _h : index < tokens.length then
    joinLoop tokens beginIndex (index+1)
      ((if index > beginIndex then joined ++ [blank] else joined) ++ tokens[index])
  else joined
termination_by tokens.length-index

def joinTokens (tokens : List Bytes) (beginIndex : ℕ) : Bytes :=
  joinLoop tokens beginIndex beginIndex []

/-- `Parse` behind the tokenizer. A read outside of the tokens is undefined in the source and
`none` here. -/
def parseTokens (tokens : List Bytes) : Option Command := do
  let verb := toUpper (← tokens.head?)
  if verb = ascii "SET" then
    if tokens.length < 3 then return makeInvalidCommand "usage: SET <key> <value>"
    return { type := .set, key := ← tokens[1]?, value := joinTokens tokens 2 }
  if verb = ascii "GET" then
    if tokens.length ≠ 2 then return makeInvalidCommand "usage: GET <key>"
    return { type := .get, key := ← tokens[1]? }
  if verb = ascii "DEL" ∨ verb = ascii "DELETE" then
    if tokens.length ≠ 2 then return makeInvalidCommand "usage: DELETE <key>"
    return { type := .del, key := ← tokens[1]? }
  if verb = ascii "CLEAR_PERSISTENCE" ∨ verb = ascii "CLEAR-PERSISTENCE" then
    if tokens.length ≠ 1 then return makeInvalidCommand "usage: CLEAR PERSISTENCE"
    return { type := .clearPersistence }
  if verb = ascii "CLEAR" then
    if tokens.length ≠ 2 then return makeInvalidCommand "usage: CLEAR PERSISTENCE"
    if toUpper (← tokens[1]?) ≠ ascii "PERSISTENCE" then
      return makeInvalidCommand "usage: CLEAR PERSISTENCE"
    return { type := .clearPersistence }
  if verb = ascii "COMPACT" ∨ verb = ascii "SNAPSHOT" then
    if tokens.length ≠ 1 then return makeInvalidCommand "usage: COMPACT"
    return { type := .compactPersistence }
  if verb = ascii "INFO" ∨ verb = ascii "VERSION" ∨ verb = ascii "STATUS" then
    if tokens.length ≠ 1 then return makeInvalidCommand "usage: INFO"
    return { type := .info }
  if verb = ascii "HELP" then return { type := .help }
  if verb = ascii "EXIT" ∨ verb = ascii "QUIT" then return { type := .exit }
  return makeInvalidCommand "unknown command"

/-- `CliParser::Parse`. -/
def parse (input : Bytes) : Option Command :=
  let trimmed := trim input
  if trimmed.isEmpty then some (makeInvalidCommand "empty command")
  else parseTokens (splitWhitespaceView trimmed)

/-! ### The grammar -/

/-- A byte and the one that it stands for in a keyword: itself, or a small letter for its
capital. -/
def SameLetter (c d : UInt8) : Prop := c = d ∨ (0x61 ≤ c ∧ c ≤ 0x7A ∧ d = c-0x20)

/-- The word is the keyword, written in any case. -/
def Spells (word : Bytes) (keyword : String) : Prop := List.Forall₂ SameLetter word (ascii keyword)

/-- The command that a list of words stands for. -/
inductive Form : List Bytes → Command → Prop where
  | set {verb key arg : Bytes} {args : List Bytes} (h : Spells verb "SET") :
      Form (verb :: key :: arg :: args)
        { type := .set, key := key, value := [blank].intercalate (arg :: args) }
  | get {verb key : Bytes} (h : Spells verb "GET") : Form [verb,key] { type := .get, key := key }
  | del {verb key : Bytes} (h : Spells verb "DEL" ∨ Spells verb "DELETE") :
      Form [verb,key] { type := .del, key := key }
  | clearPersistence {verb : Bytes}
      (h : Spells verb "CLEAR_PERSISTENCE" ∨ Spells verb "CLEAR-PERSISTENCE") :
      Form [verb] { type := .clearPersistence }
  | clear {verb word : Bytes} (h : Spells verb "CLEAR") (hword : Spells word "PERSISTENCE") :
      Form [verb,word] { type := .clearPersistence }
  | compact {verb : Bytes} (h : Spells verb "COMPACT" ∨ Spells verb "SNAPSHOT") :
      Form [verb] { type := .compactPersistence }
  | info {verb : Bytes}
      (h : Spells verb "INFO" ∨ Spells verb "VERSION" ∨ Spells verb "STATUS") :
      Form [verb] { type := .info }
  | help {verb : Bytes} {args : List Bytes} (h : Spells verb "HELP") :
      Form (verb :: args) { type := .help }
  | exit {verb : Bytes} {args : List Bytes} (h : Spells verb "EXIT" ∨ Spells verb "QUIT") :
      Form (verb :: args) { type := .exit }

theorem toUpperByte_eq_iff {c d : UInt8} (hd : ¬(0x61 ≤ d ∧ d ≤ 0x7A)) :
    toUpperByte c = d ↔ SameLetter c d := by
  unfold toUpperByte SameLetter
  by_cases hc : 0x61 ≤ c ∧ c ≤ 0x7A
  · rw [if_pos (by simpa using hc)]
    constructor
    · exact fun h => .inr ⟨hc.1, hc.2, h.symm⟩
    · rintro (rfl | ⟨-,-,rfl⟩)
      · exact absurd hc hd
      · rfl
  · rw [if_neg (by simpa using hc)]
    constructor
    · exact .inl
    · rintro (h | ⟨h1,h2,-⟩)
      · exact h
      · exact absurd ⟨h1,h2⟩ hc

/-- Comparing the capitals is comparing up to case, for a keyword in capitals. -/
theorem toUpper_eq_iff {word keyword : Bytes} (hk : ∀ d ∈ keyword, ¬(0x61 ≤ d ∧ d ≤ 0x7A)) :
    toUpper word = keyword ↔ List.Forall₂ SameLetter word keyword := by
  induction keyword generalizing word with
  | nil => rw [toUpper, List.map_eq_nil_iff, List.forall₂_nil_right_iff]
  | cons d keyword ih =>
    cases word with
    | nil => simp [toUpper, List.forall₂_nil_left_iff]
    | cons c word =>
      have hhead := @toUpperByte_eq_iff c d (hk d List.mem_cons_self)
      have htail := @ih word fun e he => hk e (List.mem_cons_of_mem d he)
      rw [toUpper] at htail
      rw [toUpper, List.map_cons, List.cons.injEq, List.forall₂_cons, hhead, htail]

/-- The keyword has no small letters. -/
def InCapitals (keyword : String) : Prop := ∀ d ∈ ascii keyword, ¬(0x61 ≤ d ∧ d ≤ 0x7A)

instance (keyword : String) : Decidable (InCapitals keyword) :=
  List.decidableBAll (fun d => ¬(0x61 ≤ d ∧ d ≤ 0x7A)) (ascii keyword)

theorem Spells.toUpper_eq {word : Bytes} {keyword : String} (h : Spells word keyword)
    (hk : InCapitals keyword) : toUpper word = ascii keyword := (toUpper_eq_iff hk).mpr h

theorem spells_of_toUpper {word : Bytes} {keyword : String} (hk : InCapitals keyword)
    (h : toUpper word = ascii keyword) : Spells word keyword := (toUpper_eq_iff hk).mp h

/-- Behind the first token, each one follows a blank. -/
theorem joinLoop_eq {tokens : List Bytes} {beginIndex index : ℕ} (h : beginIndex < index)
    (joined : Bytes) : joinLoop tokens beginIndex index joined =
      joined ++ (tokens.drop index).flatMap (blank :: ·) := by
  fun_induction joinLoop tokens beginIndex index joined with
  | case1 index joined hlt ih =>
    have hnext := ih (Nat.lt_succ_of_lt h)
    rw [dif_pos h] at hnext
    rw [if_pos h, hnext, List.drop_eq_getElem_cons hlt, List.flatMap_cons]
    simp
  | case2 index joined hge =>
    rw [List.drop_eq_nil_of_le (Nat.le_of_not_lt hge), List.flatMap_nil, List.append_nil]

theorem joinTokens_eq {tokens : List Bytes} {beginIndex : ℕ} (h : beginIndex < tokens.length) :
    joinTokens tokens beginIndex = [blank].intercalate (tokens.drop beginIndex) := by
  rw [joinTokens, joinLoop, dif_pos h, if_neg (Nat.lt_irrefl beginIndex),
    joinLoop_eq (Nat.lt_succ_self beginIndex), List.drop_eq_getElem_cons h,
    intercalate_cons_eq_flatMap, List.nil_append]

/-- What the words of a form are parsed to. -/
theorem parseTokens_of_form {tokens : List Bytes} {command : Command} (h : Form tokens command) :
    parseTokens tokens = some command ∧ command.isValid = true := by
  cases h with
  | @set verb key arg args h =>
    have hverb := h.toUpper_eq (by decide)
    have hvalue := @joinTokens_eq (verb :: key :: arg :: args) 2 (by simp)
    refine ⟨?_, rfl⟩
    simp +decide [parseTokens, hverb, hvalue]
  | get h =>
    have hverb := h.toUpper_eq (by decide)
    exact ⟨by simp +decide [parseTokens, hverb], rfl⟩
  | del h =>
    refine ⟨?_, rfl⟩
    rcases h with h | h
    all_goals
      have hverb := h.toUpper_eq (by decide)
      simp +decide [parseTokens, hverb]
  | clearPersistence h | compact h | exit h =>
    refine ⟨?_, rfl⟩
    rcases h with h | h
    all_goals
      have hverb := h.toUpper_eq (by decide)
      simp +decide [parseTokens, hverb]
  | clear h hword =>
    have hverb := h.toUpper_eq (by decide)
    have hsecond := hword.toUpper_eq (by decide)
    exact ⟨by simp +decide [parseTokens, hverb, hsecond], rfl⟩
  | info h =>
    refine ⟨?_, rfl⟩
    rcases h with h | h | h
    all_goals
      have hverb := h.toUpper_eq (by decide)
      simp +decide [parseTokens, hverb]
  | help h =>
    have hverb := h.toUpper_eq (by decide)
    exact ⟨by simp +decide [parseTokens, hverb], rfl⟩

/-- Words that are no form are reported as invalid: by the verb, and under it by the number of
words. -/
theorem invalid_or_form (verb : Bytes) (args : List Bytes) :
    (∃ message, parseTokens (verb :: args) = some (makeInvalidCommand message)) ∨
      ∃ command, Form (verb :: args) command := by
  by_cases hset : toUpper verb = ascii "SET"
  · rcases args with _ | ⟨key,_ | ⟨arg,args⟩⟩
    · exact .inl ⟨"usage: SET <key> <value>", by simp [parseTokens, hset]⟩
    · exact .inl ⟨"usage: SET <key> <value>", by simp [parseTokens, hset]⟩
    · exact .inr ⟨_, .set (spells_of_toUpper (by decide) hset)⟩
  by_cases hget : toUpper verb = ascii "GET"
  · rcases args with _ | ⟨key,_ | ⟨arg,args⟩⟩
    · exact .inl ⟨"usage: GET <key>", by simp +decide [parseTokens, hget]⟩
    · exact .inr ⟨_, .get (spells_of_toUpper (by decide) hget)⟩
    · exact .inl ⟨"usage: GET <key>", by simp +decide [parseTokens, hget]⟩
  by_cases hdel : toUpper verb = ascii "DEL" ∨ toUpper verb = ascii "DELETE"
  · rcases args with _ | ⟨key,_ | ⟨arg,args⟩⟩
    · exact .inl ⟨"usage: DELETE <key>", by simp [parseTokens, hset, hget, hdel]⟩
    · exact .inr
        ⟨_, .del (hdel.imp (spells_of_toUpper (by decide)) (spells_of_toUpper (by decide)))⟩
    · exact .inl ⟨"usage: DELETE <key>", by simp [parseTokens, hset, hget, hdel]⟩
  by_cases hpersistence :
      toUpper verb = ascii "CLEAR_PERSISTENCE" ∨ toUpper verb = ascii "CLEAR-PERSISTENCE"
  · rcases args with _ | ⟨arg,args⟩
    · exact .inr ⟨_, .clearPersistence
        (hpersistence.imp (spells_of_toUpper (by decide)) (spells_of_toUpper (by decide)))⟩
    · exact .inl ⟨"usage: CLEAR PERSISTENCE",
        by simp [parseTokens, hset, hget, hdel, hpersistence]⟩
  by_cases hclear : toUpper verb = ascii "CLEAR"
  · rcases args with _ | ⟨word,_ | ⟨arg,args⟩⟩
    · exact .inl ⟨"usage: CLEAR PERSISTENCE", by simp +decide [parseTokens, hclear]⟩
    · by_cases hword : toUpper word = ascii "PERSISTENCE"
      · exact .inr ⟨_, .clear (spells_of_toUpper (by decide) hclear)
          (spells_of_toUpper (by decide) hword)⟩
      · exact .inl ⟨"usage: CLEAR PERSISTENCE", by simp +decide [parseTokens, hclear, hword]⟩
    · exact .inl ⟨"usage: CLEAR PERSISTENCE", by simp +decide [parseTokens, hclear]⟩
  by_cases hcompact : toUpper verb = ascii "COMPACT" ∨ toUpper verb = ascii "SNAPSHOT"
  · rcases args with _ | ⟨arg,args⟩
    · exact .inr ⟨_, .compact
        (hcompact.imp (spells_of_toUpper (by decide)) (spells_of_toUpper (by decide)))⟩
    · exact .inl ⟨"usage: COMPACT",
        by simp [parseTokens, hset, hget, hdel, hpersistence, hclear, hcompact]⟩
  by_cases hinfo : toUpper verb = ascii "INFO" ∨ toUpper verb = ascii "VERSION" ∨
      toUpper verb = ascii "STATUS"
  · rcases args with _ | ⟨arg,args⟩
    · exact .inr ⟨_, .info (hinfo.imp (spells_of_toUpper (by decide))
        (Or.imp (spells_of_toUpper (by decide)) (spells_of_toUpper (by decide))))⟩
    · exact .inl ⟨"usage: INFO",
        by simp [parseTokens, hset, hget, hdel, hpersistence, hclear, hcompact, hinfo]⟩
  by_cases hhelp : toUpper verb = ascii "HELP"
  · exact .inr ⟨_, .help (spells_of_toUpper (by decide) hhelp)⟩
  by_cases hexit : toUpper verb = ascii "EXIT" ∨ toUpper verb = ascii "QUIT"
  · exact .inr ⟨_, .exit
      (hexit.imp (spells_of_toUpper (by decide)) (spells_of_toUpper (by decide)))⟩
  exact .inl ⟨"unknown command", by
    simp [parseTokens, hset, hget, hdel, hpersistence, hclear, hcompact, hinfo, hhelp, hexit]⟩

/-! ### Whole lines -/

/-- Parsing a line is parsing its words. -/
theorem parse_eq (input : Bytes) : parse input =
    if words isSpace input = [] then some (makeInvalidCommand "empty command")
    else parseTokens (words isSpace input) := by
  simp only [parse, List.isEmpty_iff, trim_eq_nil_iff, splitWhitespaceView_eq, words_trim]

theorem parse_of_form {input : Bytes} {command : Command}
    (h : Form (words isSpace input) command) :
    parse input = some command ∧ command.isValid = true := by
  have hne : words isSpace input ≠ [] := by
    intro hnil
    rw [hnil] at h
    cases h
  rw [parse_eq, if_neg hne]
  exact parseTokens_of_form h

theorem parse_invalid_or_form (input : Bytes) :
    (∃ message, parse input = some (makeInvalidCommand message)) ∨
      ∃ command, Form (words isSpace input) command := by
  rw [parse_eq]
  cases words isSpace input with
  | nil => exact .inl ⟨"empty command", rfl⟩
  | cons verb args => exact invalid_or_form verb args

/-! ### Canonical lines -/

def CommandType.verb : CommandType → Bytes
  | .invalid => []
  | .set => ascii "SET"
  | .get => ascii "GET"
  | .del => ascii "DEL"
  | .clearPersistence => ascii "CLEAR_PERSISTENCE"
  | .compactPersistence => ascii "COMPACT"
  | .info => ascii "INFO"
  | .help => ascii "HELP"
  | .exit => ascii "EXIT"

/-- The verb, the key and the value, those that there are, with single blanks between them. -/
def Command.render (command : Command) : Bytes :=
  [blank].intercalate
    ([command.type.verb,command.key,command.value].filter fun field => !field.isEmpty)

theorem words_blanks {fields : List Bytes} (h : ∀ w ∈ fields, IsWord isSpace w) :
    words isSpace ([blank].intercalate fields) = fields := words_intercalate (by decide) h

theorem Spells.self {keyword : String} (hk : InCapitals keyword)
    (hself : toUpper (ascii keyword) = ascii keyword) : Spells (ascii keyword) keyword :=
  spells_of_toUpper hk hself

/-- A command without arguments is rendered as its verb. -/
theorem words_verb {verb : Bytes} (hverb : IsWord isSpace verb) :
    words isSpace ([blank].intercalate [verb]) = [verb] := by
  rw [List.intercalate_singleton, words_of_isWord hverb]

/-- A canonical line has the words of a form of its command. -/
theorem form_words_render {tokens : List Bytes} {command : Command} (h : Form tokens command)
    (hwords : ∀ w ∈ tokens, IsWord isSpace w) : Form (words isSpace command.render) command := by
  cases h with
  | @set verb key arg args h =>
    obtain ⟨-,hkey,harg,hargs⟩ : IsWord isSpace verb ∧ IsWord isSpace key ∧ IsWord isSpace arg ∧
        ∀ w ∈ args, IsWord isSpace w := by simpa using hwords
    have hvalue : [blank].intercalate (arg :: args) ≠ [] := by
      rw [intercalate_cons_eq_flatMap]
      exact List.append_ne_nil_of_left_ne_nil harg.1 _
    -- the value is joined like the rest of the line
    have hrender : Command.render
        { type := .set, key := key, value := [blank].intercalate (arg :: args) } =
          [blank].intercalate (ascii "SET" :: key :: arg :: args) := by
      have hfields : ([ascii "SET",key,[blank].intercalate (arg :: args)].filter
          fun field => !field.isEmpty) = [ascii "SET",key,[blank].intercalate (arg :: args)] := by
        simp +decide [hkey.1, hvalue]
      rw [Command.render, CommandType.verb, hfields]
      simp [intercalate_cons_eq_flatMap]
    rw [hrender, words_blanks (by simpa [hkey, harg] using ⟨by decide, hargs⟩)]
    exact .set (.self (by decide) (by decide))
  | @get verb key h =>
    have hkey := hwords key (by simp)
    have hrender : Command.render { type := .get, key := key } =
        [blank].intercalate [ascii "GET",key] := by
      simp +decide [Command.render, CommandType.verb, hkey.1]
    rw [hrender, words_blanks (by simpa [hkey] using by decide)]
    exact .get (.self (by decide) (by decide))
  | @del verb key h =>
    have hkey := hwords key (by simp)
    have hrender : Command.render { type := .del, key := key } =
        [blank].intercalate [ascii "DEL",key] := by
      simp +decide [Command.render, CommandType.verb, hkey.1]
    rw [hrender, words_blanks (by simpa [hkey] using by decide)]
    exact .del (.inl (.self (by decide) (by decide)))
  | clearPersistence | clear =>
    rw [show words isSpace (Command.render { type := .clearPersistence }) = _ from
      words_verb (by decide)]
    exact .clearPersistence (.inl (.self (by decide) (by decide)))
  | compact =>
    rw [show words isSpace (Command.render { type := .compactPersistence }) = _ from
      words_verb (by decide)]
    exact .compact (.inl (.self (by decide) (by decide)))
  | info =>
    rw [show words isSpace (Command.render { type := .info }) = _ from
      words_verb (by decide)]
    exact .info (.inl (.self (by decide) (by decide)))
  | help =>
    rw [show words isSpace (Command.render { type := .help }) = _ from
      words_verb (by decide)]
    exact .help (.self (by decide) (by decide))
  | exit =>
    rw [show words isSpace (Command.render { type := .exit }) = _ from
      words_verb (by decide)]
    exact .exit (.inl (.self (by decide) (by decide)))

/-- Every line gives a command, which is valid exactly when the words of the line are those of a
form, and then the command of that form; the words decide everything; and a canonical line gives
its command back. -/
theorem parser_accepts_exactly_its_grammar :
    (∀ input, ∃ command, parse input = some command ∧
      ∀ c, Form (words isSpace input) c ↔ c = command ∧ command.isValid = true) ∧
    (∀ input input', words isSpace input = words isSpace input' → parse input = parse input') ∧
    ∀ input command, parse input = some command → command.isValid = true →
      parse command.render = some command := by
  have hform (input : Bytes) : ∃ command, parse input = some command ∧
      ∀ c, Form (words isSpace input) c ↔ c = command ∧ command.isValid = true := by
    rcases parse_invalid_or_form input with ⟨message,hparse⟩ | ⟨command,hform⟩
    · refine ⟨_, hparse, fun c => ⟨fun hc => ?_, fun hc => absurd hc.2 Bool.false_ne_true⟩⟩
      obtain ⟨hc,hvalid⟩ := parse_of_form hc
      obtain rfl : makeInvalidCommand message = c := Option.some.inj (hparse.symm.trans hc)
      exact ⟨rfl, hvalid⟩
    · obtain ⟨hparse,hvalid⟩ := parse_of_form hform
      refine ⟨command, hparse, fun c => ⟨fun hc => ?_, ?_⟩⟩
      · exact ⟨Option.some.inj ((parse_of_form hc).1.symm.trans hparse), hvalid⟩
      · rintro ⟨rfl,-⟩
        exact hform
  refine ⟨hform, fun input input' hwords => ?_, fun input command hparse hvalid => ?_⟩
  · rw [parse_eq, parse_eq, hwords]
  · obtain ⟨command',hparse',hiff⟩ := hform input
    obtain rfl : command = command' := Option.some.inj (hparse.symm.trans hparse')
    have htokens := (hiff command).mpr ⟨rfl, hvalid⟩
    exact (parse_of_form (form_words_render htokens fun w hw => isWord_of_mem hw)).1

theorem canonical_line_of_mixed_case :
    parse (Command.render { type := .set, key := ascii "Key", value := ascii "a b" }) =
      some { type := .set, key := ascii "Key", value := ascii "a b" } :=
  parser_accepts_exactly_its_grammar.2.2 (ascii "  sEt Key  a\t\tb \n") _ (by decide +kernel)
    (by decide)

end ConcurrentKV
