import Mathlib.Data.List.TakeWhile
import Pahole.Support.Delimited

/-!
# The list of class names

`populate_class_names` of `pahole.c` splits the argument of `-C` at its commas, where a
closing parenthesis after the first comma ends an entry that has opened one before it.
`prototype__new` takes an entry apart.
-/

namespace Pahole.ClassNames

open Delimited

/-- A string. -/
abbrev Text := List Char

/-! ## The code -/

/-- `isspace` -/
def isspace (c : Char) : Bool :=
  c == ' ' || c == '\t' || c == '\n' || c == '\x0b' || c == '\x0c' || c == '\r'

/-- `strchr`, as the index of what it returns. -/
def strchr (s : Text) (c : Char) : Option ℕ := s.idxOf? c

/-- The strings of a `struct prototype`; `nrArgs` is a `uint16_t`. -/
structure Prototype where
  name : Text
  type : Option Text
  typeEnum : Option Text
  size : Option Text
  range : Option Text
  filter : Option Text
  nrArgs : ℕ
  deriving DecidableEq

/-- A prototype with a name only. -/
def Prototype.named (name : Text) : Prototype where
  name := name
  type := none
  typeEnum := none
  size := none
  range := none
  filter := none
  nrArgs := 0

/-- `++prototype->nr_args` -/
def Prototype.countArg (proto : Prototype) : Prototype :=
  { proto with nrArgs := (proto.nrArgs + 1) % 2 ^ 16 }

/-- The field that a key stands for, set to a value. -/
def Prototype.setKey (proto : Prototype) (key value : Text) : Option Prototype :=
  if key = "sizeof".toList then some { proto with size := some value }
  else if key = "type".toList then some { proto with type := some value }
  else if key = "type_enum".toList then some { proto with typeEnum := some value }
  else if key = "filter".toList then some { proto with filter := some value }
  else if key = "range".toList then some { proto with range := some value }
  else none

/-- One turn at `next_arg`.  The value of the last argument ends at `args_close`. -/
def parseArg (proto : Prototype) (args : Text) (last : Bool) : Option Prototype :=
  (match strchr args '=' with
    | none =>
        if args = "sizeof".toList then proto.setKey "sizeof".toList "size".toList
        else if args = "type".toList then proto.setKey "type".toList "type".toList
        else none
    | some assign =>
        if args[assign + 1]? = some '=' then proto.setKey "filter".toList args
        else
          let value := (args.drop (assign + 1)).dropWhile isspace
          if last ∧ value = [] then none else proto.setKey (args.take assign) value).map
    Prototype.countArg

/-- The arguments, one after another. -/
def parseArgs (proto : Prototype) : List Text → Option Prototype
  | [] => some proto
  | [args] => parseArg proto args true
  | args :: next :: rest =>
      (parseArg proto args false).bind fun proto => parseArgs proto (next :: rest)

/-- `prototype__new` -/
def prototypeNew (expression : Text) : Option Prototype :=
  match strchr expression '(' with
  | none => some (.named expression)
  | some argsOpen =>
      match strchr (expression.drop argsOpen) ')' with
      | none => none
      | some argsClose =>
          let proto := Prototype.named (expression.take argsOpen)
          let args :=
            ((expression.drop (argsOpen + 1)).take (argsClose - 1)).dropWhile isspace
          if args = [] then some proto else parseArgs proto (args.splitOn ',')

/-- `add_class_name_entry`, where `fgets` has the lines of a file.  As in
`prototypes__load`, the last character of a line is dropped. -/
def addClassNameEntry (fgets : Text → Option (List Text)) (s : Text) :
    Option (List Prototype) :=
  if "file://".toList <+: s then
    (fgets (s.drop 7)).bind fun lines =>
      (lines.filter (· ≠ [])).mapM fun line => prototypeNew line.dropLast
  else (prototypeNew s).map fun proto => [proto]

/-- Where the entry ends that `s` starts with: at its first comma, or right behind the
parenthesis that closes one before that comma, if there is one. -/
def entryEnd (s : Text) (sep : ℕ) : Option ℕ :=
  match strchr s '(' with
  | none => some sep
  | some parens =>
      if parens < sep then
        (strchr (s.drop parens) ')').map fun closeParens =>
          if sep < parens + closeParens then parens + closeParens + 1 else sep
      else some sep

/-- The loop of `populate_class_names`, and the entry after it. -/
def populateLoop (fgets : Text → Option (List Text)) : (fuel : ℕ) → Text →
    Option (List Prototype)
  | 0, _ => none
  | fuel + 1, s =>
      match strchr s ',' with
      | none => addClassNameEntry fgets s
      | some comma =>
          (entryEnd s comma).bind fun sep =>
            (addClassNameEntry fgets (s.take sep)).bind fun protos =>
              if sep = s.length then some protos
              else (populateLoop fgets fuel (s.drop (sep + 1))).map (protos ++ ·)

/-- `populate_class_names`: the prototypes that it has added, if it has not failed. -/
def populateClassNames (fgets : Text → Option (List Text)) (className : Text) :
    Option (List Prototype) :=
  populateLoop fgets (className.length + 1) className

/-! ## The text of a list -/

/-- An argument, taken apart at its first `=`. -/
inductive Arg where
  | word (w : Text)
  | assign (key value : Text)
  | compare (field value : Text)

/-- How an argument is to be read. -/
def readArg (arg : Text) : Arg :=
  match arg.dropWhile (· ≠ '=') with
  | [] => .word arg
  | _ :: '=' :: value => .compare (arg.takeWhile (· ≠ '=')) value
  | _ :: value => .assign (arg.takeWhile (· ≠ '=')) value

/-- The keys of arguments. -/
def keys : List Text :=
  ["sizeof".toList, "type".toList, "type_enum".toList, "filter".toList, "range".toList]

/-- The argument is `sizeof`, `type`, an assignment to a known key, or a comparison. -/
def Arg.Known : Arg → Prop
  | .word w => w ∈ ["sizeof".toList, "type".toList]
  | .assign key _ => key ∈ keys
  | .compare _ _ => True

/-- An assignment or a comparison has a right side. -/
def Arg.HasValue : Arg → Prop
  | .word _ => True
  | .assign _ value => value ≠ []
  | .compare _ value => value ≠ []

/-- A name, with arguments in parentheses if there are any; `name()` has one that is
empty. -/
structure Piece where
  name : Text
  args : List Text
  closed : Bool

/-- How a piece is written. -/
def Piece.text (piece : Piece) : Text :=
  if piece.args = [] then piece.name
  else piece.name ++ '(' :: joined ',' piece.args ++ if piece.closed then [')'] else []

/-- No comma, parenthesis or blank is in the text. -/
def Clean (text : Text) : Prop :=
  ∀ c ∈ text, c ≠ ',' ∧ c ≠ '(' ∧ c ≠ ')' ∧ isspace c = false

instance : DecidablePred Clean := fun text =>
  List.decidableBAll (fun c => c ≠ ',' ∧ c ≠ '(' ∧ c ≠ ')' ∧ isspace c = false) text

/-- An entry of the list. -/
structure Entry extends Piece where
  clean : Clean name ∧ ∀ arg ∈ args, Clean arg
  /-- it is no file of class names -/
  noFile : ¬"file://".toList <+: name

/-- The arguments are closed by a parenthesis, all known, and have their values, or there are
none between the parentheses. -/
structure Entry.Valid (entry : Entry) : Prop where
  closed : entry.args ≠ [] → entry.closed = true
  args : entry.args = [[]] ∨ ∀ arg ∈ entry.args, (readArg arg).Known ∧ (readArg arg).HasValue

/-- The fields that an argument gives. -/
def Prototype.give (proto : Prototype) (arg : Text) : Prototype :=
  (match readArg arg with
    | .word w => (proto.setKey w (if w = "sizeof".toList then "size".toList else w)).getD proto
    | .assign key value => (proto.setKey key value).getD proto
    | .compare _ _ => { proto with filter := some arg }).countArg

/-- The prototype that an entry stands for. -/
def Entry.prototype (entry : Entry) : Prototype :=
  if entry.args = [[]] then .named entry.name
  else entry.args.foldl Prototype.give (.named entry.name)

/-- A list of entries, as it is written. -/
def listText (entries : List Entry) : Text := joined ',' (entries.map fun entry => entry.text)

/-- Valid entries are parsed to one prototype each, in their order, and a list with an entry
that is not valid is rejected. -/
structure ParsesAsWritten (fgets : Text → Option (List Text)) (entries : List Entry) :
    Prop where
  accepted : (∀ entry ∈ entries, entry.Valid) →
    populateClassNames fgets (listText entries) = some (entries.map Entry.prototype)
  rejected : ¬(∀ entry ∈ entries, entry.Valid) →
    populateClassNames fgets (listText entries) = none

/-! ## The pieces that the code takes -/

/-- The arguments that an entry adds to those of an open parenthesis. -/
def Entry.openArgs (entry : Entry) : List Text :=
  match entry.args with
  | [] => [entry.name]
  | arg :: args => (entry.name ++ '(' :: arg) :: args

/-- An entry that ends in a closing parenthesis. -/
def Entry.closes (entry : Entry) : Bool := entry.args ≠ [] && entry.closed

/-- The pieces of a list: an entry whose parenthesis is not closed goes on to the next
closing one.  `name` and `args` are those of such an entry, if there is one. -/
def piecesFrom : Option (Text × List Text) → List Entry → List Piece
  | none, [] => []
  | some (name, args), [] => [{ name := name, args := args, closed := false }]
  | none, entry :: entries =>
      if entry.args = [] ∨ entry.closed then entry.toPiece :: piecesFrom none entries
      else piecesFrom (some (entry.name, entry.args)) entries
  | some (name, args), entry :: entries =>
      if entry.closes then
        { name := name, args := args ++ entry.openArgs, closed := true } ::
          piecesFrom none entries
      else piecesFrom (some (name, args ++ entry.openArgs)) entries

/-- The arguments of the piece are closed and all known, and the last one is not a key without a
value. -/
structure Piece.Tolerated (piece : Piece) : Prop where
  closed : piece.args ≠ [] → piece.closed = true
  known : piece.args = [[]] ∨ ∀ arg ∈ piece.args, (readArg arg).Known
  lastValue : ∀ arg ∈ piece.args.getLast?, ∀ key, readArg arg ≠ .assign key []

/-! ## Arguments -/

section Args

variable {proto : Prototype} {arg key value w : Text} {last : Bool}

theorem setKey_eq_some (h : key ∈ keys) :
    proto.setKey key value = some ((proto.setKey key value).getD proto) := by
  simp only [keys, List.mem_cons, List.not_mem_nil, or_false] at h
  rcases h with rfl | rfl | rfl | rfl | rfl <;> rfl

theorem setKey_eq_none (h : key ∉ keys) : proto.setKey key value = none := by
  simp only [keys, List.mem_cons, List.not_mem_nil, or_false, not_or] at h
  obtain ⟨hsizeof, htype, henum, hfilter, hrange⟩ := h
  unfold Prototype.setKey
  rw [if_neg hsizeof, if_neg htype, if_neg henum, if_neg hfilter, if_neg hrange]

theorem dropWhile_isspace (h : ∀ c ∈ value, isspace c = false) : value.dropWhile isspace = value := by
  cases value with
  | nil => rfl
  | cons c value => rw [List.dropWhile_cons_of_neg (by simp [h c List.mem_cons_self])]

theorem readArg_word (h : '=' ∉ arg) : readArg arg = .word arg := by
  have hnil : arg.dropWhile (· ≠ '=') = [] := by
    rw [List.dropWhile_eq_nil_iff]
    intro c hc
    exact decide_eq_true fun heq => h (heq ▸ hc)
  unfold readArg
  rw [hnil]

/-- The first `=` splits an argument into its key and its value. -/
theorem span_first (h : '=' ∉ key) :
    (key ++ '=' :: value).dropWhile (· ≠ '=') = '=' :: value ∧
      (key ++ '=' :: value).takeWhile (· ≠ '=') = key := by
  have hall : ∀ c ∈ key, decide (c ≠ '=') = true := fun c hc =>
    decide_eq_true fun heq => h (heq ▸ hc)
  rw [List.dropWhile_append_of_pos hall, List.takeWhile_append_of_pos hall]
  simp

theorem readArg_compare (h : '=' ∉ key) :
    readArg (key ++ '=' :: '=' :: value) = .compare key value := by
  obtain ⟨hdrop, htake⟩ := span_first h
  unfold readArg
  rw [hdrop, htake]
  rfl

theorem readArg_assign (h : '=' ∉ key) (hvalue : value.head? ≠ some '=') :
    readArg (key ++ '=' :: value) = .assign key value := by
  obtain ⟨hdrop, htake⟩ := span_first h
  unfold readArg
  rw [hdrop, htake]
  split
  · rename_i heq
    cases heq
  · rename_i heq
    obtain rfl := (List.cons.inj heq).2
    exact absurd rfl hvalue
  · rename_i heq
    rw [(List.cons.inj heq).2]

/-- The argument is known, and if it is the last one, not a key without a value. -/
def Accepted (arg : Text) (last : Bool) : Prop :=
  (readArg arg).Known ∧ (last = true → ∀ key, readArg arg ≠ .assign key [])

theorem parseArg_word (h : '=' ∉ arg) :
    parseArg proto arg last =
      if arg ∈ ["sizeof".toList, "type".toList] then some (proto.give arg) else none := by
  have hnone : strchr arg '=' = none := List.idxOf?_eq_none_iff.mpr h
  unfold parseArg Prototype.give
  rw [hnone, readArg_word h]
  dsimp only
  by_cases hsizeof : arg = "sizeof".toList
  · subst hsizeof
    rfl
  · by_cases htype : arg = "type".toList
    · subst htype
      rfl
    · have hword : arg ∉ ["sizeof".toList, "type".toList] := by
        rw [List.mem_cons, List.mem_singleton]
        exact not_or.mpr ⟨hsizeof, htype⟩
      rw [if_neg hsizeof, if_neg htype, if_neg hword]
      rfl

/-- An argument is taken if and only if it is `Accepted`. -/
theorem parseArg_eq (proto : Prototype) (last : Bool) (hblank : ∀ c ∈ arg, isspace c = false) :
    (Accepted arg last → parseArg proto arg last = some (proto.give arg)) ∧
      (¬Accepted arg last → parseArg proto arg last = none) := by
  unfold Accepted
  by_cases hassign : '=' ∈ arg
  · obtain ⟨key, value, rfl, hkey⟩ := exists_append_of_mem hassign
    have hfound : strchr (key ++ '=' :: value) '=' = some key.length := idxOf?_append hkey
    have hnext : (key ++ '=' :: value)[key.length + 1]? = value.head? := by
      rw [List.getElem?_append_right (Nat.le_succ _), Nat.succ_sub (le_refl _), Nat.sub_self]
      cases value <;> rfl
    have hdrop : ((key ++ '=' :: value).drop (key.length + 1)).dropWhile isspace = value := by
      rw [List.drop_append, Nat.add_sub_cancel_left,
        List.drop_eq_nil_of_le (Nat.le_succ _), List.nil_append]
      exact dropWhile_isspace fun c hc =>
        hblank c (List.mem_append_right _ (List.mem_cons_of_mem _ hc))
    unfold parseArg
    rw [hfound]
    dsimp only
    rw [hnext, hdrop, List.take_left]
    by_cases hvalue : value.head? = some '='
    · obtain ⟨w, rfl⟩ := List.head?_eq_some_iff.mp hvalue
      have hread : readArg (key ++ '=' :: '=' :: w) = .compare key w := readArg_compare hkey
      rw [if_pos hvalue]
      unfold Prototype.give
      rw [hread]
      exact ⟨fun _ => rfl, fun h => absurd ⟨trivial, fun _ _ heq => by cases heq⟩ h⟩
    · have hread : readArg (key ++ '=' :: value) = .assign key value :=
        readArg_assign hkey hvalue
      rw [if_neg hvalue]
      unfold Prototype.give
      rw [hread]
      constructor
      · rintro ⟨hknown, hlast⟩
        have hkeep : ¬(last = true ∧ value = []) := by
          rintro ⟨htrue, rfl⟩
          exact hlast htrue key rfl
        rw [if_neg hkeep, setKey_eq_some hknown]
        rfl
      · intro h
        split
        · rfl
        · rename_i hkeep
          have hunknown : key ∉ keys := by
            intro hknown
            refine h ⟨hknown, fun htrue key' heq => hkeep ⟨htrue, ?_⟩⟩
            exact (Arg.assign.inj heq).2
          rw [setKey_eq_none hunknown]
          rfl
  · rw [parseArg_word hassign, readArg_word hassign]
    constructor
    · rintro ⟨hknown, -⟩
      exact if_pos hknown
    · intro h
      refine if_neg fun hknown => h ⟨hknown, fun _ _ heq => ?_⟩
      cases heq

/-- All arguments are known, and the last one is not a key without a value. -/
def AllAccepted (args : List Text) : Prop :=
  (∀ arg ∈ args, (readArg arg).Known) ∧
    ∀ arg ∈ args.getLast?, ∀ key, readArg arg ≠ .assign key []

theorem allAccepted_cons {next : Text} {rest : List Text} :
    AllAccepted (arg :: next :: rest) ↔ Accepted arg false ∧ AllAccepted (next :: rest) := by
  unfold AllAccepted Accepted
  rw [List.forall_mem_cons, List.getLast?_cons_cons]
  simp [and_assoc]

/-- The arguments are taken if all of them are accepted. -/
theorem parseArgs_eq {args : List Text} (hne : args ≠ [])
    (hblank : ∀ arg ∈ args, ∀ c ∈ arg, isspace c = false) :
    (AllAccepted args → parseArgs proto args = some (args.foldl Prototype.give proto)) ∧
      (¬AllAccepted args → parseArgs proto args = none) := by
  induction args generalizing proto with
  | nil => exact absurd rfl hne
  | cons arg args ih =>
      obtain ⟨hfirst, hrest⟩ := List.forall_mem_cons.mp hblank
      cases args with
      | nil =>
          have hiff : AllAccepted [arg] ↔ Accepted arg true := by
            unfold AllAccepted Accepted
            simp
          rw [hiff]
          exact parseArg_eq proto true hfirst
      | cons next rest =>
          obtain ⟨hsome, hnone⟩ := parseArg_eq proto false hfirst
          obtain ⟨hsome', hnone'⟩ := @ih (proto.give arg) (List.cons_ne_nil _ _) hrest
          rw [allAccepted_cons, parseArgs]
          constructor
          · rintro ⟨harg, hargs⟩
            rw [hsome harg, Option.bind_some]
            exact hsome' hargs
          · intro h
            by_cases harg : Accepted arg false
            · rw [hsome harg, Option.bind_some]
              exact hnone' fun hargs => h ⟨harg, hargs⟩
            · rw [hnone harg, Option.bind_none]

end Args

/-! ## Pieces -/

/-- The name is clean and no `file://` path, and no argument has a comma, a closing parenthesis
or a blank. -/
structure Piece.Fair (piece : Piece) : Prop where
  name : Clean piece.name
  noFile : ¬"file://".toList <+: piece.name
  args : ∀ arg ∈ piece.args, ∀ c ∈ arg, c ≠ ',' ∧ c ≠ ')' ∧ isspace c = false

/-- The prototype that the arguments of a piece give. -/
def Piece.prototype (piece : Piece) : Prototype :=
  if piece.args = [[]] then .named piece.name
  else piece.args.foldl Prototype.give (.named piece.name)

section Pieces

variable {piece : Piece} {name text : Text} {args : List Text}

theorem strchr_eq_none {c : Char} (h : c ∉ text) : strchr text c = none :=
  List.idxOf?_eq_none_iff.mpr h

/-- `prototype__new` parses the arguments between the parentheses, if there are any. -/
theorem prototypeNew_parens {inner t : Text} (hname : '(' ∉ name) (hinner : ')' ∉ inner)
    (hblank : ∀ c ∈ inner, isspace c = false) :
    prototypeNew (name ++ '(' :: (inner ++ ')' :: t)) =
      if inner = [] then some (.named name)
      else parseArgs (.named name) (inner.splitOn ',') := by
  have hopen : strchr (name ++ '(' :: (inner ++ ')' :: t)) '(' = some name.length :=
    idxOf?_append hname
  have hclose : strchr ('(' :: (inner ++ ')' :: t)) ')' = some (inner.length + 1) := by
    have hnot : ')' ∉ '(' :: inner := by
      simpa using hinner
    exact idxOf?_append hnot
  have hargs : ((name ++ '(' :: (inner ++ ')' :: t)).drop (name.length + 1)).take
      (inner.length + 1 - 1) = inner := by
    rw [List.drop_append, Nat.add_sub_cancel_left, List.drop_eq_nil_of_le (Nat.le_succ _)]
    simp
  unfold prototypeNew
  rw [hopen]
  dsimp only
  rw [List.drop_left, hclose]
  dsimp only
  rw [hargs, dropWhile_isspace hblank, List.take_left]

theorem prototypeNew_unclosed (hname : '(' ∉ name) (h : ')' ∉ text) :
    prototypeNew (name ++ '(' :: text) = none := by
  have hopen : strchr (name ++ '(' :: text) '(' = some name.length := idxOf?_append hname
  have hclose : strchr ('(' :: text) ')' = none := strchr_eq_none (by simpa using h)
  unfold prototypeNew
  rw [hopen]
  dsimp only
  rw [List.drop_left, hclose]

theorem Piece.Fair.joined (h : piece.Fair) :
    ∀ c ∈ joined ',' piece.args, c ≠ ')' ∧ isspace c = false :=
  forall_mem_joined (by decide) fun arg harg c hc => (h.args arg harg c hc).2

/-- `prototype__new` makes the prototype of a piece that is tolerated, and rejects any other. -/
theorem prototypeNew_piece (h : piece.Fair) :
    (piece.Tolerated → prototypeNew piece.text = some piece.prototype) ∧
      (¬piece.Tolerated → prototypeNew piece.text = none) := by
  have hname : '(' ∉ piece.name := fun hmem => (h.name _ hmem).2.1 rfl
  have hinner : ')' ∉ joined ',' piece.args := fun hmem => (h.joined _ hmem).1 rfl
  unfold Piece.text
  by_cases hargs : piece.args = []
  · have hplain : prototypeNew piece.name = some piece.prototype := by
      unfold prototypeNew Piece.prototype
      rw [strchr_eq_none hname, hargs]
      rfl
    have htolerated : piece.Tolerated :=
      ⟨fun hne => absurd hargs hne, Or.inr (by simp [hargs]), by simp [hargs]⟩
    rw [if_pos hargs]
    exact ⟨fun _ => hplain, fun hnot => absurd htolerated hnot⟩
  · rw [if_neg hargs]
    cases hclosed : piece.closed with
    | false =>
        rw [if_neg Bool.false_ne_true, List.append_nil]
        refine ⟨fun htolerated => ?_, fun _ => prototypeNew_unclosed hname hinner⟩
        have htrue := htolerated.closed hargs
        rw [hclosed] at htrue
        cases htrue
    | true =>
        rw [if_pos rfl, List.append_assoc, List.cons_append,
          prototypeNew_parens hname hinner fun c hc => (h.joined c hc).2]
        unfold Piece.prototype
        by_cases hempty : piece.args = [[]]
        · have htolerated : piece.Tolerated :=
            ⟨fun _ => hclosed, Or.inl hempty, by simp [hempty, readArg_word]⟩
          rw [if_pos ((joined_eq_nil_iff hargs).mpr hempty), if_pos hempty]
          exact ⟨fun _ => rfl, fun hnot => absurd htolerated hnot⟩
        · have hiff : piece.Tolerated ↔ AllAccepted piece.args :=
            ⟨fun htolerated =>
              ⟨htolerated.known.resolve_left hempty, htolerated.lastValue⟩,
              fun haccepted => ⟨fun _ => hclosed, Or.inr haccepted.1, haccepted.2⟩⟩
          rw [if_neg (mt (joined_eq_nil_iff hargs).mp hempty), if_neg hempty, hiff,
            splitOn_joined hargs fun arg harg hmem => (h.args arg harg _ hmem).1 rfl]
          exact parseArgs_eq hargs fun arg harg c hc => (h.args arg harg c hc).2.2

/-- A parenthesis after a name that does not start with `file://` gives no text that does. -/
theorem noFile_append (h : ¬"file://".toList <+: name) :
    ¬"file://".toList <+: name ++ '(' :: text := by
  intro hfile
  rcases le_or_gt "file://".toList.length name.length with hle | hlt
  · exact h (List.prefix_of_prefix_length_le hfile (List.prefix_append _ _) hle)
  · have hopen : name ++ ['('] <+: name ++ '(' :: text := ⟨text, by simp⟩
    have hle : (name ++ ['(']).length ≤ "file://".toList.length := by
      rw [List.length_append]
      exact hlt
    have hmem : '(' ∈ "file://".toList :=
      (List.prefix_of_prefix_length_le hopen hfile hle).subset
        (List.mem_append_right _ List.mem_cons_self)
    exact absurd hmem (by decide)

theorem addClassNameEntry_piece {fgets : Text → Option (List Text)} (h : piece.Fair) :
    addClassNameEntry fgets piece.text =
      (prototypeNew piece.text).map fun proto => [proto] := by
  unfold addClassNameEntry
  refine if_neg ?_
  unfold Piece.text
  split
  · exact h.noFile
  · rw [List.append_assoc, List.cons_append]
    exact noFile_append h.noFile

end Pieces

/-! ## The loop -/

/-- The prototypes of pieces. -/
def addPieces (pieces : List Piece) : Option (List Prototype) :=
  pieces.mapM fun piece => prototypeNew piece.text

/-- The text behind an entry. -/
def tailText (entries : List Entry) : Text :=
  if entries = [] then [] else ',' :: listText entries

section Loop

variable {fgets : Text → Option (List Text)} {fuel : ℕ} {name front inner t : Text}
  {piece : Piece} {pieces : List Piece} {entry : Entry} {entries : List Entry}
  {args : List Text}

theorem addPieces_cons :
    addPieces (piece :: pieces) =
      (prototypeNew piece.text).bind fun proto => (addPieces pieces).map (proto :: ·) := by
  unfold addPieces
  rw [List.mapM_cons]
  cases prototypeNew piece.text with
  | none => rfl
  | some proto => cases pieces.mapM fun piece => prototypeNew piece.text <;> rfl

theorem listText_cons : listText (entry :: entries) = entry.text ++ tailText entries := by
  unfold tailText listText
  by_cases hnil : entries = []
  · rw [if_pos hnil, hnil]
    simp
  · rw [if_neg hnil, List.map_cons, joined_cons (by simpa using hnil)]

/-- The loop adds a text without a comma as one entry. -/
theorem populateLoop_last (h : ',' ∉ t) :
    populateLoop fgets (fuel + 1) t = addClassNameEntry fgets t := by
  have hcomma : strchr t ',' = none := strchr_eq_none h
  rw [populateLoop, hcomma]

/-- A comma before any parenthesis ends an entry. -/
theorem populateLoop_plain (hcomma : ',' ∉ front) (hopen : '(' ∉ front) :
    populateLoop fgets (fuel + 1) (front ++ ',' :: t) =
      (addClassNameEntry fgets front).bind fun protos =>
        (populateLoop fgets fuel t).map (protos ++ ·) := by
  have hfound : strchr (front ++ ',' :: t) ',' = some front.length := idxOf?_append hcomma
  have hend : entryEnd (front ++ ',' :: t) front.length = some front.length := by
    unfold entryEnd strchr
    rw [idxOf?_append_of_not_mem hopen]
    cases (',' :: t).idxOf? '(' with
    | none => rfl
    | some i => simp
  have hnext : (front ++ ',' :: t).drop (front.length + 1) = t := by
    rw [← List.drop_drop, List.drop_left]
    rfl
  have hmore : front.length ≠ (front ++ ',' :: t).length := by
    rw [List.length_append, List.length_cons]
    omega
  rw [populateLoop, hfound]
  dsimp only
  rw [hend, Option.bind_some, List.take_left, hnext]
  refine congrArg _ (funext fun protos => if_neg hmore)

/-- An entry with parentheses ends behind the closing one, wherever the next comma is. -/
theorem entryEnd_parens {comma : ℕ} (hname : '(' ∉ name) (hinner : ')' ∉ inner)
    (hfirst : name.length < comma)
    (hbehind : comma < name.length + 1 + inner.length ∨
      comma = name.length + inner.length + 2) :
    entryEnd (name ++ '(' :: (inner ++ ')' :: t)) comma =
      some (name.length + inner.length + 2) := by
  have hopen : strchr (name ++ '(' :: (inner ++ ')' :: t)) '(' = some name.length :=
    idxOf?_append hname
  have hclose : strchr ('(' :: (inner ++ ')' :: t)) ')' = some (inner.length + 1) := by
    have hnot : ')' ∉ '(' :: inner := by
      simpa using hinner
    exact idxOf?_append hnot
  unfold entryEnd
  rw [hopen]
  dsimp only
  rw [if_pos hfirst, List.drop_left, hclose, Option.map_some]
  congr 1
  split <;> omega

/-- A comma inside of the parentheses or right behind them leads to their end. -/
theorem exists_comma_parens (hname : Clean name) (hinner : ')' ∉ inner)
    (h : ',' ∈ inner ∨ ∃ t', t = ',' :: t') :
    ∃ comma, strchr (name ++ '(' :: (inner ++ ')' :: t)) ',' = some comma ∧
      entryEnd (name ++ '(' :: (inner ++ ')' :: t)) comma =
        some (name.length + inner.length + 2) := by
  have hcomma : ',' ∉ name := fun hmem => (hname _ hmem).1 rfl
  have hopen : '(' ∉ name := fun hmem => (hname _ hmem).2.1 rfl
  by_cases hmem : ',' ∈ inner
  · obtain ⟨u, v, hsplit, hu⟩ := exists_append_of_mem hmem
    have hfront : ',' ∉ name ++ '(' :: u := by
      simp [hcomma, hu]
    have htext : name ++ '(' :: (inner ++ ')' :: t) =
        (name ++ '(' :: u) ++ ',' :: (v ++ ')' :: t) := by
      simp [hsplit]
    have hlength : inner.length = u.length + 1 + v.length := by
      rw [hsplit, List.length_append, List.length_cons]
      omega
    have hfound : strchr (name ++ '(' :: (inner ++ ')' :: t)) ',' =
        some (name ++ '(' :: u).length := by
      rw [htext]
      exact idxOf?_append hfront
    refine ⟨_, hfound, entryEnd_parens hopen hinner ?_ (Or.inl ?_)⟩ <;>
      rw [List.length_append, List.length_cons] <;> omega
  · obtain ⟨t', rfl⟩ := h.resolve_left hmem
    have hfront : ',' ∉ name ++ '(' :: (inner ++ [')']) := by
      simp [hcomma, hmem]
    have htext : name ++ '(' :: (inner ++ ')' :: ',' :: t') =
        (name ++ '(' :: (inner ++ [')'])) ++ ',' :: t' := by
      simp
    have hfound : strchr (name ++ '(' :: (inner ++ ')' :: ',' :: t')) ',' =
        some (name ++ '(' :: (inner ++ [')'])).length := by
      rw [htext]
      exact idxOf?_append hfront
    refine ⟨_, hfound, entryEnd_parens hopen hinner ?_ (Or.inr ?_)⟩ <;>
      rw [List.length_append, List.length_cons, List.length_append, List.length_singleton] <;>
      omega

/-- The loop adds an entry in parentheses at the end of the text as it stands. -/
theorem populateLoop_parens_last (hname : Clean name) (hinner : ')' ∉ inner) :
    populateLoop fgets (fuel + 1) (name ++ '(' :: (inner ++ [')'])) =
      addClassNameEntry fgets (name ++ '(' :: (inner ++ [')'])) := by
  by_cases hmem : ',' ∈ inner
  · obtain ⟨comma, hfound, hend⟩ := exists_comma_parens hname hinner (t := []) (Or.inl hmem)
    have hlength : name.length + inner.length + 2 =
        (name ++ '(' :: (inner ++ [')'])).length := by
      simp only [List.length_append, List.length_cons, List.length_nil]
      omega
    rw [populateLoop, hfound]
    dsimp only
    rw [hend, Option.bind_some, hlength, List.take_length]
    simp
  · have hnone : ',' ∉ name ++ '(' :: (inner ++ [')']) := by
      have hcomma : ',' ∉ name := fun hmem => (hname _ hmem).1 rfl
      simp [hcomma, hmem]
    exact populateLoop_last hnone

/-- The loop adds an entry in parentheses, and then those behind it. -/
theorem populateLoop_parens (hname : Clean name) (hinner : ')' ∉ inner) :
    populateLoop fgets (fuel + 1) (name ++ '(' :: (inner ++ ')' :: ',' :: t)) =
      (addClassNameEntry fgets (name ++ '(' :: (inner ++ [')']))).bind fun protos =>
        (populateLoop fgets fuel t).map (protos ++ ·) := by
  obtain ⟨comma, hfound, hend⟩ :=
    exists_comma_parens (t := ',' :: t) hname hinner (Or.inr ⟨t, rfl⟩)
  have hlength : name.length + inner.length + 2 = (name ++ '(' :: (inner ++ [')'])).length := by
    simp only [List.length_append, List.length_cons, List.length_nil]
    omega
  have htext : name ++ '(' :: (inner ++ ')' :: ',' :: t) =
      (name ++ '(' :: (inner ++ [')'])) ++ ',' :: t := by
    simp
  rw [populateLoop, hfound]
  dsimp only
  rw [hend, Option.bind_some, htext, hlength, List.take_left, ← List.drop_drop, List.drop_left]
  refine congrArg _ (funext fun protos => if_neg ?_)
  simp only [List.length_append, List.length_cons]
  omega

/-- The loop fails on an entry whose parenthesis is not closed. -/
theorem populateLoop_unclosed (hname : Clean name) (hfile : ¬"file://".toList <+: name)
    (h : ')' ∉ inner) : populateLoop fgets (fuel + 1) (name ++ '(' :: inner) = none := by
  have hcomma : ',' ∉ name := fun hmem => (hname _ hmem).1 rfl
  have hopen : '(' ∉ name := fun hmem => (hname _ hmem).2.1 rfl
  by_cases hmem : ',' ∈ inner
  · obtain ⟨u, v, hsplit, hu⟩ := exists_append_of_mem hmem
    have hfront : ',' ∉ name ++ '(' :: u := by
      simp [hcomma, hu]
    have htext : name ++ '(' :: inner = (name ++ '(' :: u) ++ ',' :: v := by
      simp [hsplit]
    have hfound : strchr (name ++ '(' :: inner) ',' = some (name ++ '(' :: u).length := by
      rw [htext]
      exact idxOf?_append hfront
    have hparens : strchr (name ++ '(' :: inner) '(' = some name.length := idxOf?_append hopen
    have hclose : strchr ('(' :: inner) ')' = none := strchr_eq_none (by simpa using h)
    have hend : entryEnd (name ++ '(' :: inner) (name ++ '(' :: u).length = none := by
      unfold entryEnd
      rw [hparens]
      dsimp only
      rw [List.drop_left, hclose]
      split
      · rfl
      · rename_i hlt
        rw [List.length_append, List.length_cons] at hlt
        omega
    rw [populateLoop, hfound]
    dsimp only
    rw [hend, Option.bind_none]
  · have hnone : ',' ∉ name ++ '(' :: inner := by
      simp [hcomma, hmem]
    rw [populateLoop_last hnone]
    unfold addClassNameEntry
    rw [if_neg (noFile_append hfile), prototypeNew_unclosed hopen h]
    rfl

theorem addPieces_singleton :
    addPieces [piece] = (prototypeNew piece.text).map fun proto => [proto] := by
  rw [addPieces_cons]
  cases prototypeNew piece.text <;> rfl

/-- One turn of the loop takes one piece, if that is closed. -/
theorem populateLoop_piece (hfair : piece.Fair) (hclosed : piece.args ≠ [] → piece.closed = true)
    (hrest : entries ≠ [] →
      populateLoop fgets fuel (listText entries) = addPieces (piecesFrom none entries)) :
    populateLoop fgets (fuel + 1) (piece.text ++ tailText entries) =
      addPieces (piece :: piecesFrom none entries) := by
  have hadd : addClassNameEntry fgets piece.text =
      (prototypeNew piece.text).map fun proto => [proto] := addClassNameEntry_piece hfair
  have hcomma : ',' ∉ piece.name := fun hmem => (hfair.name _ hmem).1 rfl
  have hopen : '(' ∉ piece.name := fun hmem => (hfair.name _ hmem).2.1 rfl
  have hinner : ')' ∉ joined ',' piece.args := fun hmem => (hfair.joined _ hmem).1 rfl
  by_cases hnil : entries = []
  · have hlast : populateLoop fgets (fuel + 1) piece.text =
        addClassNameEntry fgets piece.text := by
      unfold Piece.text
      by_cases hargs : piece.args = []
      · rw [if_pos hargs]
        exact populateLoop_last hcomma
      · rw [if_neg hargs, if_pos (hclosed hargs), List.append_assoc, List.cons_append]
        exact populateLoop_parens_last hfair.name hinner
    have htail : tailText entries = [] := if_pos hnil
    rw [htail, List.append_nil, hlast, hadd, hnil]
    exact addPieces_singleton.symm
  · have htail : tailText entries = ',' :: listText entries := if_neg hnil
    have hnext : populateLoop fgets (fuel + 1) (piece.text ++ ',' :: listText entries) =
        (addClassNameEntry fgets piece.text).bind fun protos =>
          (populateLoop fgets fuel (listText entries)).map (protos ++ ·) := by
      unfold Piece.text
      by_cases hargs : piece.args = []
      · rw [if_pos hargs]
        exact populateLoop_plain hcomma hopen
      · rw [if_neg hargs, if_pos (hclosed hargs)]
        simp only [List.append_assoc, List.cons_append, List.nil_append]
        exact populateLoop_parens hfair.name hinner
    rw [htail, hnext, hadd, hrest hnil, addPieces_cons]
    cases prototypeNew piece.text <;> rfl

/-! ### Open parentheses -/

/-- A clean name with one fair argument at least. -/
structure Open (name : Text) (args : List Text) : Prop where
  ne : args ≠ []
  fair : Piece.Fair { name := name, args := args, closed := true }

theorem Entry.fair (entry : Entry) : entry.toPiece.Fair where
  name := entry.clean.1
  noFile := entry.noFile
  args := fun arg harg c hc =>
    have hclean := entry.clean.2 arg harg c hc
    ⟨hclean.1, hclean.2.2.1, hclean.2.2.2⟩

theorem Entry.openArgs_ne (entry : Entry) : entry.openArgs ≠ [] := by
  unfold Entry.openArgs
  split <;> simp

/-- An entry behind an open parenthesis adds to its arguments. -/
theorem Open.append (h : Open name args) (entry : Entry) : Open name (args ++ entry.openArgs) := by
  have hentry : ∀ arg ∈ entry.openArgs, ∀ c ∈ arg, c ≠ ',' ∧ c ≠ ')' ∧ isspace c = false := by
    have hname : ∀ c ∈ entry.name, c ≠ ',' ∧ c ≠ ')' ∧ isspace c = false := fun c hc =>
      ⟨(entry.clean.1 c hc).1, (entry.clean.1 c hc).2.2⟩
    have hargs := entry.fair.args
    unfold Entry.openArgs
    split
    · exact List.forall_mem_singleton.mpr hname
    · rename_i arg args heq
      rw [heq] at hargs
      obtain ⟨harg, hothers⟩ := List.forall_mem_cons.mp hargs
      refine List.forall_mem_cons.mpr ⟨fun c hc => ?_, hothers⟩
      rcases List.mem_append.mp hc with hmem | hmem
      · exact hname c hmem
      · rcases List.mem_cons.mp hmem with rfl | hmem
        · decide
        · exact harg c hmem
  refine ⟨List.append_ne_nil_of_left_ne_nil h.ne _, h.fair.name, h.fair.noFile, ?_⟩
  exact List.forall_mem_append.mpr ⟨h.fair.args, hentry⟩

/-- The text of an entry is its `openArgs` joined by commas, and a parenthesis if it closes one.
-/
theorem Entry.text_eq (entry : Entry) :
    entry.text = joined ',' entry.openArgs ++ if entry.closes then [')'] else [] := by
  unfold Piece.text Entry.closes Entry.openArgs
  cases hargs : entry.args with
  | nil => simp
  | cons arg args =>
      have hopen : joined ',' ((entry.name ++ '(' :: arg) :: args) =
          entry.name ++ '(' :: joined ',' (arg :: args) := by
        cases args with
        | nil => simp
        | cons next args =>
            rw [joined_cons (List.cons_ne_nil _ _), joined_cons (List.cons_ne_nil _ _)]
            simp
      simp [hopen]

theorem populateLoop_pieces (entries : List Entry) :
    (∀ fuel, entries ≠ [] → (listText entries).length < fuel →
        populateLoop fgets fuel (listText entries) = addPieces (piecesFrom none entries)) ∧
      ∀ name args fuel, Open name args →
        (name ++ '(' :: (joined ',' args ++ tailText entries)).length < fuel →
        populateLoop fgets fuel (name ++ '(' :: (joined ',' args ++ tailText entries)) =
          addPieces (piecesFrom (some (name, args)) entries) := by
  induction entries with
  | nil =>
      refine ⟨fun _ hne => absurd rfl hne, fun name args fuel hopen hfuel => ?_⟩
      have hinner : ')' ∉ joined ',' args := fun hmem => (hopen.fair.joined _ hmem).1 rfl
      have hparens : '(' ∉ name := fun hmem => (hopen.fair.name _ hmem).2.1 rfl
      have htail : tailText [] = [] := rfl
      obtain ⟨fuel, rfl⟩ := Nat.exists_eq_succ_of_ne_zero (Nat.ne_zero_of_lt hfuel)
      rw [htail, List.append_nil,
        populateLoop_unclosed hopen.fair.name hopen.fair.noFile hinner, piecesFrom,
        addPieces_singleton]
      unfold Piece.text
      dsimp only
      rw [if_neg hopen.ne, if_neg Bool.false_ne_true, List.append_nil,
        prototypeNew_unclosed hparens hinner]
      rfl
  | cons entry entries ih =>
      obtain ⟨ihList, ihOpen⟩ := ih
      have hrest : ∀ fuel front, (front ++ tailText entries).length < fuel + 1 → entries ≠ [] →
          populateLoop fgets fuel (listText entries) = addPieces (piecesFrom none entries) := by
        intro fuel front hfuel hne
        refine ihList fuel hne ?_
        have htail : tailText entries = ',' :: listText entries := if_neg hne
        rw [htail, List.length_append, List.length_cons] at hfuel
        omega
      constructor
      · intro fuel _ hfuel
        rw [listText_cons] at hfuel ⊢
        rw [piecesFrom]
        split
        · rename_i hpiece
          obtain ⟨fuel, rfl⟩ := Nat.exists_eq_succ_of_ne_zero (Nat.ne_zero_of_lt hfuel)
          exact populateLoop_piece entry.fair (fun hne => hpiece.resolve_left hne)
            (hrest fuel _ hfuel)
        · rename_i hpiece
          obtain ⟨hargs, hclosed⟩ := not_or.mp hpiece
          have htext : entry.text ++ tailText entries =
              entry.name ++ '(' :: (joined ',' entry.args ++ tailText entries) := by
            unfold Piece.text
            rw [if_neg hargs, if_neg hclosed]
            simp
          rw [htext] at hfuel ⊢
          exact ihOpen _ _ _ ⟨hargs, entry.fair.name, entry.fair.noFile, entry.fair.args⟩ hfuel
      · intro name args fuel hopen hfuel
        have happend := hopen.append entry
        have htext : name ++ '(' :: (joined ',' args ++ tailText (entry :: entries)) =
            name ++ '(' :: (joined ',' (args ++ entry.openArgs) ++
              ((if entry.closes then [')'] else []) ++ tailText entries)) := by
          have htail : tailText (entry :: entries) = ',' :: listText (entry :: entries) :=
            if_neg (List.cons_ne_nil _ _)
          rw [htail, listText_cons, entry.text_eq, joined_append hopen.ne entry.openArgs_ne]
          simp
        rw [htext] at hfuel ⊢
        rw [piecesFrom]
        cases hcloses : entry.closes with
        | true =>
            have hpiece : name ++ '(' :: (joined ',' (args ++ entry.openArgs) ++
                ([')'] ++ tailText entries)) =
                Piece.text { name := name, args := args ++ entry.openArgs, closed := true } ++
                  tailText entries := by
              unfold Piece.text
              dsimp only
              rw [if_neg happend.ne, if_pos rfl]
              simp
            rw [hcloses, if_pos rfl, hpiece] at hfuel
            rw [if_pos rfl, if_pos rfl, hpiece]
            obtain ⟨fuel, rfl⟩ := Nat.exists_eq_succ_of_ne_zero (Nat.ne_zero_of_lt hfuel)
            exact populateLoop_piece happend.fair (fun _ => rfl) (hrest fuel _ hfuel)
        | false =>
            rw [hcloses, if_neg Bool.false_ne_true, List.nil_append] at hfuel
            rw [if_neg Bool.false_ne_true, if_neg Bool.false_ne_true, List.nil_append]
            exact ihOpen _ _ _ happend hfuel

/-- Every piece that the entries are cut into is `Fair`. -/
theorem piecesFrom_fair (entries : List Entry) :
    (∀ piece ∈ piecesFrom none entries, piece.Fair) ∧
      ∀ name args, Open name args → ∀ piece ∈ piecesFrom (some (name, args)) entries, piece.Fair := by
  induction entries with
  | nil =>
      refine ⟨by simp [piecesFrom], fun name args hopen => ?_⟩
      exact List.forall_mem_singleton.mpr
        ⟨hopen.fair.name, hopen.fair.noFile, hopen.fair.args⟩
  | cons entry entries ih =>
      obtain ⟨ihNone, ihOpen⟩ := ih
      constructor
      · rw [piecesFrom]
        split
        · exact List.forall_mem_cons.mpr ⟨entry.fair, ihNone⟩
        · rename_i hpiece
          exact ihOpen _ _ ⟨(not_or.mp hpiece).1, entry.fair.name, entry.fair.noFile,
            entry.fair.args⟩
      · intro name args hopen
        have happend := hopen.append entry
        rw [piecesFrom]
        split
        · exact List.forall_mem_cons.mpr ⟨happend.fair, ihNone⟩
        · exact ihOpen _ _ happend

/-- Pieces give their prototypes if all of them are tolerated, and fail otherwise. -/
theorem addPieces_eq (hfair : ∀ piece ∈ pieces, piece.Fair) :
    ((∀ piece ∈ pieces, piece.Tolerated) → addPieces pieces = some (pieces.map Piece.prototype)) ∧
      ((∃ piece ∈ pieces, ¬piece.Tolerated) → addPieces pieces = none) := by
  induction pieces with
  | nil => exact ⟨fun _ => rfl, fun ⟨piece, hmem, _⟩ => absurd hmem (by simp)⟩
  | cons piece pieces ih =>
      obtain ⟨hpiece, hpieces⟩ := List.forall_mem_cons.mp hfair
      obtain ⟨hsome, hnone⟩ := prototypeNew_piece hpiece
      obtain ⟨ihSome, ihNone⟩ := ih hpieces
      rw [addPieces_cons]
      constructor
      · intro hall
        obtain ⟨hfirst, hothers⟩ := List.forall_mem_cons.mp hall
        rw [hsome hfirst, ihSome hothers]
        rfl
      · rintro ⟨bad, hmem, hbad⟩
        by_cases hfirst : piece.Tolerated
        · have hin : bad ∈ pieces := by
            rcases List.mem_cons.mp hmem with rfl | hin
            · exact absurd hfirst hbad
            · exact hin
          rw [hsome hfirst, ihNone ⟨bad, hin, hbad⟩]
          rfl
        · rw [hnone hfirst]
          rfl

/-- `populate_class_names` adds the pieces that `piecesFrom` cuts the list into. -/
theorem populateClassNames_eq (hne : entries ≠ []) :
    populateClassNames fgets (listText entries) = addPieces (piecesFrom none entries) :=
  (populateLoop_pieces entries).1 _ hne (Nat.lt_succ_self _)

theorem Entry.Valid.tolerated (h : entry.Valid) : entry.toPiece.Tolerated := by
  refine ⟨h.closed, h.args.imp_right fun hall arg harg => (hall arg harg).1, ?_⟩
  intro arg harg key hread
  rcases h.args with hempty | hall
  · rw [hempty] at harg
    obtain rfl := Option.some.inj harg
    rw [readArg_word (by simp)] at hread
    cases hread
  · have hvalue := (hall arg (List.mem_of_mem_getLast? harg)).2
    rw [hread] at hvalue
    exact hvalue rfl

/-- Of valid entries the pieces are the entries. -/
theorem piecesFrom_valid (h : ∀ entry ∈ entries, entry.Valid) :
    piecesFrom none entries = entries.map Entry.toPiece := by
  induction entries with
  | nil => rfl
  | cons entry entries ih =>
      obtain ⟨hentry, hentries⟩ := List.forall_mem_cons.mp h
      have hpiece : entry.args = [] ∨ entry.closed = true :=
        or_iff_not_imp_left.mpr hentry.closed
      rw [piecesFrom, if_pos hpiece, ih hentries, List.map_cons]

end Loop

/-- A list is parsed as it is written if and only if all entries are valid, or one of its pieces
is not tolerated.  A piece is an entry with what follows up to the next closing parenthesis,
where the entry has none itself. -/
theorem parsesAsWritten_iff (fgets : Text → Option (List Text)) (first : Entry)
    (rest : List Entry) :
    ParsesAsWritten fgets (first :: rest) ↔
      (∀ entry ∈ first :: rest, entry.Valid) ∨
        ∃ piece ∈ piecesFrom none (first :: rest), ¬piece.Tolerated := by
  have hparse : populateClassNames fgets (listText (first :: rest)) =
      addPieces (piecesFrom none (first :: rest)) :=
    populateClassNames_eq (List.cons_ne_nil _ _)
  obtain ⟨hsome, hnone⟩ := addPieces_eq (piecesFrom_fair (first :: rest)).1
  constructor
  · intro h
    by_cases hvalid : ∀ entry ∈ first :: rest, entry.Valid
    · exact Or.inl hvalid
    · right
      by_contra hall
      push Not at hall
      have hfails := h.rejected hvalid
      rw [hparse, hsome hall] at hfails
      cases hfails
  · rintro (hvalid | hbad)
    · refine ⟨fun _ => ?_, fun hnot => absurd hvalid hnot⟩
      have htolerated : ∀ piece ∈ piecesFrom none (first :: rest), piece.Tolerated := by
        rw [piecesFrom_valid hvalid]
        exact List.forall_mem_map.mpr fun entry hmem => (hvalid entry hmem).tolerated
      rw [hparse, hsome htolerated, piecesFrom_valid hvalid, List.map_map]
      rfl
    · refine ⟨fun hvalid => ?_, fun _ => hparse.trans (hnone hbad)⟩
      obtain ⟨piece, hmem, hpiece⟩ := hbad
      rw [piecesFrom_valid hvalid] at hmem
      obtain ⟨entry, hentry, rfl⟩ := List.mem_map.mp hmem
      exact absurd (hvalid entry hentry).tolerated hpiece

/-- `event(sizeof=,type)` -/
def emptySizeof : Entry where
  name := "event".toList
  args := ["sizeof=".toList, "type".toList]
  closed := true
  clean := by decide
  noFile := by decide

/-- The entry `emptySizeof` is not parsed as written. -/
theorem parsesAsWritten_false : ¬ParsesAsWritten (fun _ => none) [emptySizeof] := by
  intro h
  have hvalid : ¬∀ entry ∈ [emptySizeof], entry.Valid := by
    intro hall
    rcases (hall emptySizeof List.mem_cons_self).args with hempty | hargs
    · exact absurd hempty (by decide)
    · have hread : readArg "sizeof=".toList = .assign "sizeof".toList [] := rfl
      have hvalue := (hargs _ List.mem_cons_self).2
      rw [hread] at hvalue
      exact hvalue rfl
  have hnone := h.rejected hvalid
  have hsome : (populateClassNames (fun _ => none) (listText [emptySizeof])).isSome = true := by
    decide
  rw [hnone] at hsome
  cases hsome

/-- A list as it is meant to be. -/
example : populateClassNames (fun _ => none) "a(sizeof=s,type),b,c(x==1)".toList =
    some [
      { Prototype.named "a".toList with
        size := some "s".toList, type := some "type".toList, nrArgs := 2 },
      .named "b".toList,
      { Prototype.named "c".toList with filter := some "x==1".toList, nrArgs := 1 }] := by
  decide

end Pahole.ClassNames
