import Mathlib.Data.Bool.AllAny
import QBittorrent.Lib.Text

/-!
# The external program

`runExternalProgram` splits a command into arguments and then replaces the specifiers in each, such
as `%N`, by what they stand for.  It goes from the end of the argument to its begin, so that what has
been inserted is behind it, and leaves out the character in front of each percent sign.

* `replaceVariables_eq_iff` : the loop agrees with reading the text from its begin, `pieces`, exactly
  if it gets to all specifiers;
* `fixed_iff` : so the arguments are the same for all torrents, but for the values;
-/

namespace QBittorrent.ExternalProgram

open List Option

/-- A text is the list of its `QChar`s.  A character stands for one UTF-16 unit, and only ASCII ones are
looked at. -/
abbrev Text := List Char

/-- What specifiers stand for. -/
structure Torrent where
  filesCount : ℤ
  savePath : Text
  contentPath : Text
  tags : List Text
  /-- The hashes, if they are valid. -/
  infoHashV1 : Option Text
  infoHashV2 : Option Text
  id : Text
  category : Text
  name : Text
  rootPath : Text
  currentTracker : Text
  totalSize : ℤ

/-- The value of a specifier. -/
def Torrent.value (torrent : Torrent) : Char → Option Text
  | 'C' => some (toString torrent.filesCount).toList
  | 'D' => some torrent.savePath
  | 'F' => some torrent.contentPath
  | 'G' => some ([','].intercalate torrent.tags)
  | 'I' => some (torrent.infoHashV1.getD ['-'])
  | 'J' => some (torrent.infoHashV2.getD ['-'])
  | 'K' => some torrent.id
  | 'L' => some torrent.category
  | 'N' => some torrent.name
  | 'R' => some torrent.rootPath
  | 'T' => some torrent.currentTracker
  | 'Z' => some (toString torrent.totalSize).toList
  | _ => none

/-- The body of the loop, with an index that is below the given one.  It is skipped if there is a
percent sign behind. -/
def replaceFrom (torrent : Torrent) : Bool → ℕ → Text → Text
  | _, 0, str => str
  | true, i + 1, str => replaceFrom torrent false i str
  | false, i + 1, str =>
    if str[i]? = some '%' then
      replaceFrom torrent true i <|
        match str[i + 1]?.bind torrent.value with
        | some value => str.take i ++ (value ++ str.drop (i + 2))
        | none => str
    else replaceFrom torrent false i str

/-- The first index is an `int`. -/
def start (str : Text) : ℕ := (((str.length : ℤ) - 2).bmod (2 ^ 32) + 1).toNat

def replaceVariables (torrent : Torrent) (str : Text) : Text :=
  replaceFrom torrent false (start str) str

/-- `splitCommand`, with what the loop has gathered. -/
def splitFrom : Text → List Text → Bool → Text → List Text
  | [], ret, _, tmp => if tmp.isEmpty then ret else ret ++ [tmp]
  | c :: command, ret, inQuotes, tmp =>
    if c = ' ' then
      if inQuotes then splitFrom command ret inQuotes (tmp ++ [c])
      else if tmp.isEmpty then splitFrom command ret inQuotes tmp
      else splitFrom command (ret ++ [tmp]) inQuotes []
    else splitFrom command ret (if c = '"' then !inQuotes else inQuotes) (tmp ++ [c])

def splitCommand (command : Text) : List Text := splitFrom command [] false []

/-- Redundant quotes are stripped. -/
def stripQuotes (arg : Text) : Text :=
  if arg.head? = some '"' ∧ arg.getLast? = some '"' then (arg.drop 1).take (arg.length - 2) else arg

/-- What `runExternalProgram` starts: the program and its arguments, or nothing if there are none. -/
def arguments (programTemplate : Text) (torrent : Torrent) : List Text :=
  (splitCommand programTemplate).map fun arg => replaceVariables torrent (stripQuotes arg)

/-! ### Texts with specifiers -/

def IsSpecifier (c : Char) : Prop := c ∈ "CDFGIJKLNRTZ".toList
  deriving Decidable

inductive Piece where
  | text (c : Char)
  | specifier (c : Char)

/-- A percent sign directly before the letter of a specifier stands for its value. -/
def pieces : Text → List Piece
  | [] => []
  | [c] => [.text c]
  | c :: d :: rest =>
    if c = '%' ∧ IsSpecifier d then .specifier d :: pieces rest else .text c :: pieces (d :: rest)

def Piece.render (torrent : Torrent) : Piece → Text
  | text c => [c]
  | specifier c => (torrent.value c).getD []

/-- The text with the values of a torrent. -/
def render (torrent : Torrent) (l : List Piece) : Text := l.flatMap (Piece.render torrent)

/-- The arguments of a command, before anything is known of a torrent. -/
def fixedArguments (programTemplate : Text) : List (List Piece) :=
  (splitCommand programTemplate).map fun arg => pieces (stripQuotes arg)

/-- All torrents get the same arguments, but for the values, which are inserted once for each
specifier. -/
structure Fixed (programTemplate : Text) : Prop where
  length_eq : ∀ torrent torrent' : Torrent,
    (arguments programTemplate torrent).length = (arguments programTemplate torrent').length
  arguments_eq : ∀ torrent : Torrent,
    arguments programTemplate torrent = (fixedArguments programTemplate).map (render torrent)

/-- No specifier is behind the place where the loop begins. -/
def Reached (str : Text) : Prop := ∀ c, .specifier c ∉ pieces (str.drop (start str))

variable {torrent : Torrent} {s t : Text} {c d : Char}

theorem isSome_value_iff : (torrent.value c).isSome ↔ IsSpecifier c := by
  unfold Torrent.value
  split <;> simp_all [IsSpecifier]

theorem pieces_cons (h : ¬ (c = '%' ∧ ∃ d ∈ t.head?, IsSpecifier d)) :
    pieces (c :: t) = .text c :: pieces t := by
  cases t with
  | nil => rfl
  | cons d t => exact if_neg fun hc => h ⟨hc.1, d, rfl, hc.2⟩

theorem pieces_specifier (h : IsSpecifier c) : pieces ('%' :: c :: t) = .specifier c :: pieces t :=
  if_pos ⟨rfl, h⟩

theorem pieces_append (h : ¬ (s.getLast? = some '%' ∧ ∃ d ∈ t.head?, IsSpecifier d)) :
    pieces (s ++ t) = pieces s ++ pieces t := by
  induction s using pieces.induct with
  | case1 => rfl
  | case2 c => exact pieces_cons fun hc => h ⟨congrArg some hc.1, hc.2⟩
  | case3 c d rest hc ih =>
    obtain ⟨rfl, hd⟩ := hc
    rw [cons_append, cons_append, pieces_specifier hd, pieces_specifier hd,
      cons_append]
    cases rest with
    | nil => rfl
    | cons e rest => rw [ih (by simpa using h)]
  | case4 c d rest hc ih =>
    have hcons : ∀ u, pieces (c :: d :: u) = .text c :: pieces (d :: u) := fun u => if_neg hc
    rw [cons_append, cons_append, hcons, hcons, ← cons_append, ih (by simpa using h),
      cons_append]

theorem pieces_append_percent (s t : Text) : pieces (s ++ '%' :: t) = pieces s ++ pieces ('%' :: t) := by
  refine pieces_append ?_
  rintro ⟨-, d, hd, hspecifier⟩
  obtain rfl := some.inj hd
  exact absurd hspecifier (by decide)

theorem length_pieces (s : Text) :
    (pieces s).length + (pieces s).countP (· matches .specifier _) = s.length := by
  induction s using pieces.induct with
  | case1 => rfl
  | case2 c => rfl
  | case3 c d rest hc ih =>
    rw [pieces, if_pos hc, length_cons, countP_cons_of_pos rfl]
    simp only [length_cons]
    omega
  | case4 c d rest hc ih =>
    rw [pieces, if_neg hc, length_cons, countP_cons_of_neg (by simp)]
    simp only [length_cons] at ih ⊢
    omega

theorem render_append (l m : List Piece) : render torrent (l ++ m) = render torrent l ++ render torrent m :=
  flatMap_append

theorem render_pieces_of_text (h : ∀ c, .specifier c ∉ pieces s) : render torrent (pieces s) = s := by
  induction s using pieces.induct with
  | case1 => rfl
  | case2 c => rfl
  | case3 c d rest hc ih =>
    rw [pieces, if_pos hc] at h
    exact absurd mem_cons_self (h d)
  | case4 c d rest hc ih =>
    rw [pieces, if_neg hc] at h ⊢
    exact congrArg (c :: ·) (ih fun e he => h e (mem_cons_of_mem _ he))

/-! ### The loop -/

/-- Behind a character that is skipped, or one that has been seen, stands any text. -/
theorem replaceFrom_eq (s : Text) : (∀ c u, replaceFrom torrent false s.length (s ++ c :: u) =
      render torrent (pieces (s ++ [c])) ++ u) ∧
    ∀ u, replaceFrom torrent true s.length (s ++ u) = render torrent (pieces s) ++ u := by
  induction s using List.reverseRecOn with
  | nil => exact ⟨fun c u => rfl, fun u => rfl⟩
  | append_singleton s d ih =>
    obtain ⟨hseen, hskipped⟩ := ih
    refine ⟨fun c u => ?_, fun u => ?_⟩
    · have hd : (s ++ [d] ++ c :: u)[s.length]? = some d := by simp
      have hc : (s ++ [d] ++ c :: u)[s.length + 1]? = some c := by simp
      rw [length_append, length_singleton, replaceFrom, hd, hc, bind_some,
        append_assoc, append_assoc, singleton_append, singleton_append]
      by_cases hpercent : d = '%'
      · subst hpercent
        rw [if_pos rfl, pieces_append_percent, render_append]
        by_cases hspecifier : IsSpecifier c
        · obtain ⟨value, hvalue⟩ := isSome_iff_exists.1 (isSome_value_iff.2 hspecifier)
          have hdrop : (s ++ '%' :: c :: u).drop (s.length + 2) = u := by simp
          rw [hvalue, take_left, hdrop, hskipped, pieces_specifier hspecifier]
          simp [render, Piece.render, pieces, hvalue]
        · have hnone : torrent.value c = none := by
            rwa [← not_isSome_iff_eq_none, isSome_value_iff]
          rw [hnone, hskipped, pieces_cons (by simpa using hspecifier)]
          simp [render, Piece.render, pieces]
      · have hne : some d ≠ some '%' := fun h => hpercent (some.inj h)
        have happend : pieces (s ++ [d] ++ [c]) = pieces (s ++ [d]) ++ pieces [c] :=
          pieces_append (by simp [hpercent])
        rw [append_assoc, singleton_append] at happend
        rw [if_neg hne, hseen, happend, render_append, append_assoc]
        rfl
    · rw [length_append, length_singleton, replaceFrom, append_assoc,
        singleton_append]
      exact hseen d u

theorem start_lt (h : s ≠ []) : start s < s.length := by
  have hlength := length_pos_iff.2 h
  rw [start, Int.bmod_def]
  split_ifs <;> omega

theorem replaceVariables_eq (h : s.drop (start s) = c :: t) : replaceVariables torrent s =
    render torrent (pieces (s.take (start s) ++ [c])) ++ t := by
  have hne : s ≠ [] := by
    rintro rfl
    simp at h
  have hlength : (s.take (start s)).length = start s := length_take_of_le (start_lt hne).le
  have heq := (@replaceFrom_eq torrent (s.take (start s))).1 c t
  rwa [hlength, ← h, take_append_drop] at heq

/-- A torrent all of whose values are one character long. -/
def plainTorrent : Torrent where
  filesCount := 1
  savePath := ['/']
  contentPath := ['/']
  tags := [['t']]
  infoHashV1 := none
  infoHashV2 := none
  id := ['0']
  category := ['c']
  name := ['n']
  rootPath := ['/']
  currentTracker := ['u']
  totalSize := 0

theorem length_render (s : Text) : (render plainTorrent (pieces s)).length = (pieces s).length := by
  have hvalue : ∀ c ∈ "CDFGIJKLNRTZ".toList, ((plainTorrent.value c).getD []).length = 1 :=
    all_iff_forall_prop.1 (by decide)
  induction s using pieces.induct with
  | case1 => rfl
  | case2 c => rfl
  | case3 c d rest hc ih =>
    rw [pieces, if_pos hc, render, flatMap_cons, length_append, Piece.render, hvalue d hc.2,
      length_cons, ← ih, render, Nat.add_comm]
  | case4 c d rest hc ih =>
    rw [pieces, if_neg hc, render, flatMap_cons, length_append, length_cons, ← ih,
      render, Nat.add_comm]
    rfl

theorem replaceVariables_eq_iff (s : Text) :
    (∀ torrent, replaceVariables torrent s = render torrent (pieces s)) ↔ Reached s := by
  cases hdrop : s.drop (start s) with
  | nil =>
    have hnil : s = [] := by
      by_contra hne
      exact absurd (drop_eq_nil_iff.1 hdrop) (not_le.2 (start_lt hne))
    subst hnil
    exact iff_of_true (fun _ => rfl) (fun c => by simp [pieces])
  | cons c t =>
    have hs : s.take (start s) ++ c :: t = s := by rw [← hdrop, take_append_drop]
    rw [Reached, hdrop]
    by_cases hcross : c = '%' ∧ ∃ d ∈ t.head?, IsSpecifier d
    · -- the specifier at the place itself is left as it is
      obtain ⟨rfl, d, hd, hspecifier⟩ := hcross
      obtain ⟨t, rfl⟩ : ∃ t', t = d :: t' := List.head?_eq_some_iff.1 hd
      rw [pieces_specifier hspecifier]
      refine iff_of_false (fun h => ?_) fun h => h d mem_cons_self
      have heq := congrArg List.length ((replaceVariables_eq hdrop).symm.trans (h plainTorrent))
      have hpieces : pieces s = pieces (s.take (start s)) ++ .specifier d :: pieces t := by
        rw [← pieces_specifier hspecifier, ← pieces_append_percent, hs]
      have hle := length_pieces t
      rw [length_append, length_render, length_render, hpieces, pieces_append_percent] at heq
      simp only [length_append, length_cons, pieces, length_nil] at heq
      omega
    · have hpieces : pieces s = pieces (s.take (start s) ++ [c]) ++ pieces t := by
        rw [← pieces_append (by simpa using hcross), append_assoc, singleton_append, hs]
      have hone : (∀ torrent, replaceVariables torrent s = render torrent (pieces s)) ↔
          ∀ torrent, t = render torrent (pieces t) := by
        refine forall_congr' fun torrent => ?_
        rw [replaceVariables_eq hdrop, hpieces, render_append, append_cancel_left_eq]
      rw [hone, pieces_cons hcross]
      constructor
      · intro h e he
        have hlength := congrArg List.length (h plainTorrent)
        have hcount := length_pieces t
        rw [length_render] at hlength
        have hzero : (pieces t).countP (· matches .specifier _) = 0 := by omega
        have he := (mem_cons.1 he).resolve_left (by simp)
        exact countP_eq_zero.1 hzero _ he rfl
      · exact fun h torrent => (render_pieces_of_text fun e he => h e (mem_cons_of_mem _ he)).symm

/-- All torrents get the same arguments, but for the values, exactly if the loop gets to all specifiers
of each one. -/
theorem fixed_iff (programTemplate : Text) : Fixed programTemplate ↔
    ∀ arg ∈ splitCommand programTemplate, Reached (stripQuotes arg) := by
  have harguments : Fixed programTemplate ↔ ∀ torrent, arguments programTemplate torrent =
      (fixedArguments programTemplate).map (render torrent) := by
    refine ⟨Fixed.arguments_eq, fun h => ⟨fun torrent torrent' => ?_, h⟩⟩
    rw [arguments, arguments, length_map, length_map]
  rw [harguments]
  simp only [← replaceVariables_eq_iff, arguments, fixedArguments, List.map_map, map_inj_left,
    Function.comp_apply]
  exact ⟨fun h arg harg torrent => h torrent arg harg, fun h torrent arg harg => h arg harg torrent⟩

/-! ### A long command -/

theorem splitFrom_of_plain (h : ∀ c ∈ s, c ≠ ' ' ∧ c ≠ '"') (ret : List Text) (tmp : Text) :
    splitFrom s ret false tmp = if (tmp ++ s).isEmpty then ret else ret ++ [tmp ++ s] := by
  induction s generalizing tmp with
  | nil => rw [splitFrom, append_nil]
  | cons c s ih =>
    rw [forall_mem_cons] at h
    rw [splitFrom, if_neg h.1.1, if_neg h.1.2, ih h.2, append_assoc, singleton_append]

/-- The letter `a` and behind it `%N`. -/
def longCommand (n : ℕ) : Text := List.replicate n 'a' ++ ['%', 'N']

theorem splitCommand_longCommand (n : ℕ) : splitCommand (longCommand n) = [longCommand n] := by
  have hplain : ∀ c ∈ longCommand n, c ≠ ' ' ∧ c ≠ '"' := by
    intro c hc
    rcases mem_append.1 hc with hc | hc
    · rw [eq_of_mem_replicate hc]
      decide
    · have hletters : ∀ c ∈ ['%', 'N'], c ≠ ' ' ∧ c ≠ '"' := by simp
      exact hletters c hc
  rw [splitCommand, splitFrom_of_plain hplain]
  simp [longCommand]

theorem not_fixed_of_start {n : ℕ} (h : start (longCommand n) = 0) : ¬ Fixed (longCommand n) := by
  have hstrip : stripQuotes (longCommand n) = longCommand n := by
    rw [stripQuotes, if_neg]
    simp [longCommand]
  intro hfixed
  have heq := hfixed.arguments_eq
  simp only [arguments, fixedArguments, splitCommand_longCommand, hstrip, map_cons, map_nil,
    List.cons.injEq, and_true] at heq
  have hreached := (replaceVariables_eq_iff _).1 heq
  rw [Reached, h, drop_zero, longCommand, pieces_append_percent] at hreached
  exact hreached 'N' (by simp [pieces, IsSpecifier])

/-- The index of the percent sign is not an `int`, and the name of the torrent is not inserted. -/
theorem not_fixed_longCommand : ¬ Fixed (longCommand (2 ^ 31)) := by
  refine not_fixed_of_start ?_
  have hlength : ((longCommand (2 ^ 31)).length : ℤ) - 2 = 2 ^ 31 := by
    rw [longCommand, length_append, length_replicate]
    simp only [length_cons, length_nil]
    omega
  rw [start, hlength]
  decide

end QBittorrent.ExternalProgram
