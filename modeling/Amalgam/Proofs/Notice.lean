import Amalgam.Console
import Mathlib.Data.List.TakeWhile

/-!
# Notices can be shown

A text that is escaped is read as plain text, if no bracket comes right behind it that closes what it leaves open
(`exists_pieces_escape`). So the tags of a notice match, whatever names and causes it quotes, and every notice can be logged
(`Notice.exists_log`).
-/

namespace Amalgam

namespace Text.Markup

variable {behind cs : List Char}

/-! ## Escaped texts -/

theorem isTag_of_not_closes {cs : List Char} (h : closes cs = false) : isTag cs = false := by
  cases cs with
  | nil => rfl
  | cons c rest =>
    rw [closes] at h
    rw [isTag, Bool.and_eq_false_iff]
    by_cases hopens : (c == '[') = true
    · obtain rfl : c = '[' := by simpa using hopens
      exact Or.inl (by decide)
    · by_cases hcloses : (c == ']') = true
      · rw [if_pos hcloses] at h
        cases h
      · rw [if_neg hcloses, if_neg hopens] at h
        exact Or.inr h

theorem closes_replicate (n : Nat) (cs : List Char) : closes (List.replicate n '\\' ++ cs) = closes cs := by
  induction n with
  | zero => rfl
  | succ n ih => exact ih

/-- To escape a text closes nothing that was open. -/
theorem closes_escapeFrom (h : closes cs = false) (hbehind : closes behind = false) (n : Nat) :
    closes (escapeFrom false n cs ++ behind) = false := by
  induction cs generalizing n with
  | nil => rw [escapeFrom, closes_replicate, hbehind]
  | cons c rest ih =>
    rw [closes] at h
    have hcloses : ¬(c == ']') = true := fun hc => by rw [if_pos hc] at h; cases h
    rw [if_neg hcloses] at h
    rw [escapeFrom]
    by_cases hback : (c == '\\') = true
    · obtain rfl : c = '\\' := by simpa using hback
      exact ih h (n + 1)
    rw [if_neg hback]
    by_cases hopens : (c == '[') = true
    · split <;> rw [List.append_assoc, closes_replicate, List.cons_append, closes, if_neg hcloses, if_pos hopens]
    · rw [if_neg hopens] at h
      rw [if_neg (by simp [hopens]), List.append_assoc, closes_replicate, List.cons_append, closes, if_neg hcloses, if_neg hopens]
      exact ih h 0

/-- What stands after a backslash is put behind it. -/
theorem exists_escapeFrom_succ (n : Nat) (cs : List Char) : ∃ rest, escapeFrom false (n + 1) cs = '\\' :: rest := by
  induction cs generalizing n with
  | nil => exact ⟨_, rfl⟩
  | cons c rest ih =>
    rw [escapeFrom]
    split
    · exact ih (n + 1)
    · split <;> exact ⟨_, rfl⟩

/-- What is escaped is no tag where the text was none. -/
theorem isTag_escapeFrom (h : isTag cs = false) (hbehind : closes behind = false) :
    isTag (escapeFrom false 0 cs ++ behind) = false := by
  cases cs with
  | nil => exact isTag_of_not_closes hbehind
  | cons c rest =>
    rw [escapeFrom]
    split
    · obtain ⟨after, hafter⟩ := exists_escapeFrom_succ 0 rest
      rw [hafter]
      rfl
    · split
      · rfl
      · rw [List.replicate_zero, List.nil_append, List.cons_append, isTag]
        rw [isTag, Bool.and_eq_false_iff] at h
        rcases h with hopens | hcloses
        · rw [hopens, Bool.false_and]
        · rw [closes_escapeFrom hcloses hbehind, Bool.and_false]

/-! ## Reading them -/

theorem pieces_replicate (held : List Char) (m n : Nat) (cs : List Char) :
    pieces none held m (List.replicate n '\\' ++ cs) = pieces none held (m + n) cs := by
  induction n generalizing m with
  | zero => rfl
  | succ n ih => rw [List.replicate_succ, List.cons_append, pieces, if_pos (beq_self_eq_true _), ih, Nat.add_assoc,
    Nat.add_comm 1 n]

/-- A character that opens no tag is plain, and a bracket that is escaped opens none. -/
theorem exists_pieces_cons {c : Char} (hback : c ≠ '\\') {m : Nat} (cs : List Char) (h : c = '[' → isTag cs = true → m % 2 = 1)
    (held : List Char) : ∃ held', pieces none held m (c :: cs) = pieces none held' 0 cs := by
  rw [pieces, if_neg (by simpa using hback)]
  split
  · rename_i htag
    simp only [Bool.and_eq_true, beq_iff_eq] at htag
    have hodd := h htag.1.1 htag.1.2
    rw [htag.2] at hodd
    cases hodd
  · split <;> exact ⟨_, rfl⟩

/-- An escaped text is plain, from the outside of a tag and from the inside of one that is being copied. -/
theorem exists_pieces_escapeFrom (hbehind : closes behind = false) (cs : List Char) :
    (∀ n held, ∃ held' m, pieces none held 0 (escapeFrom false n cs ++ behind) = pieces none held' m behind) ∧
      (closes cs = true → ∀ held m, ∃ held' m', pieces none held m (escapeFrom true 0 cs ++ behind) = pieces none held' m' behind) := by
  induction cs with
  | nil =>
    refine ⟨fun n held => ⟨held, 0 + n, ?_⟩, fun h => nomatch h⟩
    rw [escapeFrom, pieces_replicate]
  | cons c rest ih =>
    obtain ⟨houtside, hinside⟩ := ih
    constructor
    · intro n held
      rw [escapeFrom]
      by_cases hback : (c == '\\') = true
      · rw [if_pos hback]
        exact houtside (n + 1) held
      have hplain : c ≠ '\\' := by simpa using hback
      rw [if_neg hback]
      by_cases htag : (c == '[' && isTag rest) = true
      · have hcloses : closes rest = true := by
          by_contra hopen
          rw [isTag_of_not_closes (Bool.eq_false_iff.2 hopen), Bool.and_false] at htag
          cases htag
        rw [if_pos htag, List.append_assoc, pieces_replicate, List.cons_append]
        obtain ⟨held', hcons⟩ := exists_pieces_cons hplain (m := 0 + (2 * n + 1)) (escapeFrom true 0 rest ++ behind)
          (fun _ _ => by omega) held
        rw [hcons]
        exact hinside hcloses held' 0
      · have hnone : c = '[' → isTag (escapeFrom false 0 rest ++ behind) = true → (0 + n) % 2 = 1 := by
          rintro rfl hcopied
          rw [isTag_escapeFrom (by simpa using htag) hbehind] at hcopied
          cases hcopied
        rw [if_neg htag, List.append_assoc, pieces_replicate, List.cons_append]
        obtain ⟨held', hcons⟩ := exists_pieces_cons hplain _ hnone held
        rw [hcons]
        exact houtside 0 held'
    · intro hcloses held m
      rw [escapeFrom, List.cons_append]
      rw [closes] at hcloses
      by_cases hend : (c == ']') = true
      · obtain rfl : c = ']' := by simpa using hend
        obtain ⟨held', hcons⟩ := exists_pieces_cons (c := ']') (by decide) (m := m) (escapeFrom false 0 rest ++ behind)
          (fun h => absurd h (by decide)) held
        exact hcons ▸ houtside 0 held'
      · rw [if_neg hend] at hcloses
        have hopens : ¬(c == '[') = true := fun h => by rw [if_pos h] at hcloses; cases hcloses
        rw [if_neg hopens] at hcloses
        rw [show (c != ']') = true by simpa using hend]
        by_cases hback : c = '\\'
        · rw [pieces, if_pos (by simpa using hback)]
          exact hinside hcloses held (m + 1)
        · obtain ⟨held', hcons⟩ := exists_pieces_cons hback (m := m) (escapeFrom true 0 rest ++ behind)
            (fun h => absurd h (by simpa using hopens)) held
          exact hcons ▸ hinside hcloses held' 0

theorem closeEnd_eq (cs : List Char) : closeEnd cs = cs ∨ closeEnd cs = cs ++ ['\\'] := by
  unfold closeEnd
  split
  · exact Or.inl rfl
  · exact Or.inr rfl
  · exact Or.inl rfl

/-- An escaped text is plain, whatever comes behind it that closes no tag. -/
theorem exists_pieces_escape (hbehind : closes behind = false) (s : String) (held : List Char) :
    ∃ held' m, pieces none held 0 ((escape s).toList ++ behind) = pieces none held' m behind := by
  rw [escape, String.toList_ofList]
  rcases closeEnd_eq (escapeFrom false 0 s.toList) with hend | hend
  · rw [hend]
    exact (exists_pieces_escapeFrom hbehind s.toList).1 0 held
  · rw [hend, List.append_assoc]
    have hbehind' : closes (['\\'] ++ behind) = false := hbehind
    obtain ⟨held', m, h⟩ := (exists_pieces_escapeFrom hbehind' s.toList).1 0 held
    exact ⟨held', m + 1, h.trans (pieces_replicate held' m 1 behind)⟩

/-! ## Tags that match -/

/-- A text whose tags match, after so many backslashes and whatever tags are open. -/
def Matches (m : Nat) (cs : List Char) : Prop := ∀ stack held, (render? stack (pieces none held m cs)).isSome = true

theorem matches_nil (m : Nat) : Matches m [] := fun _ _ => rfl

/-- Whether a text is something without brackets that open and without backslashes. -/
def isPlain (text : List Char) : Bool := !text.isEmpty && text.all fun c => c != '[' && c != '\\'

theorem isPlain_iff {text : List Char} : isPlain text = true ↔ text ≠ [] ∧ ∀ c ∈ text, c ≠ '[' ∧ c ≠ '\\' := by
  simp [isPlain]

/-- A plain text in front changes nothing. -/
theorem Matches.plain {text : List Char} (h : Matches 0 cs) (m : Nat) (plain : isPlain text = true) : Matches m (text ++ cs) := by
  rw [isPlain_iff] at plain
  obtain ⟨hne, plain⟩ := plain
  induction text generalizing m with
  | nil => exact absurd rfl hne
  | cons c rest ih =>
    intro stack held
    obtain ⟨hopens, hback⟩ := plain c List.mem_cons_self
    obtain ⟨held', hcons⟩ := exists_pieces_cons hback (m := m) (rest ++ cs) (fun h => absurd h hopens) held
    rw [List.cons_append, hcons]
    cases rest with
    | nil => exact h stack held'
    | cons d rest => exact ih 0 (by simp) (fun c hc => plain c (List.mem_cons_of_mem _ hc)) stack held'

/-- So does an escaped one. -/
theorem matches_escape (hbehind : closes behind = false) (h : ∀ m, Matches m behind) (s : String) :
    Matches 0 ((escape s).toList ++ behind) := by
  intro stack held
  obtain ⟨held', m, hread⟩ := exists_pieces_escape hbehind s held
  rw [hread]
  exact h m stack held'

/-- Whether a name is made of small letters. -/
def isTagName (name : List Char) : Bool := !name.isEmpty && name.all fun c => 'a' ≤ c && c ≤ 'z'

theorem isTagName_iff {name : List Char} : isTagName name = true ↔ name ≠ [] ∧ ∀ c ∈ name, 'a' ≤ c ∧ c ≤ 'z' := by
  simp [isTagName]

section Tag

variable {name : List Char} (hname : ∀ c ∈ name, 'a' ≤ c ∧ c ≤ 'z')

include hname

theorem closes_name (cs : List Char) : closes (name ++ ']' :: cs) = true := by
  induction name with
  | nil => rfl
  | cons c rest ih =>
    have hc := hname c List.mem_cons_self
    rw [List.cons_append, closes]
    split
    · rfl
    · rw [if_neg]
      · exact ih fun c hc => hname c (List.mem_cons_of_mem _ hc)
      · intro h
        obtain rfl : c = '[' := by simpa using h
        exact absurd hc (by decide)

/-- What is read of a tag that has been entered. -/
theorem pieces_name (before held : List Char) (m : Nat) (cs : List Char) : pieces (some before) held m (name ++ ']' :: cs) =
    .plain held.reverse :: pieceOf (before.reverse ++ name) :: pieces none [] 0 cs := by
  induction name generalizing before with
  | nil => rw [List.nil_append, pieces, if_pos (beq_self_eq_true _), List.append_nil]
  | cons c rest ih =>
    have hc : ¬(c == ']') = true := by
      intro h
      obtain rfl : c = ']' := by simpa using h
      exact absurd (hname _ List.mem_cons_self) (by decide)
    rw [List.cons_append, pieces, if_neg hc, ih fun c hc => hname c (List.mem_cons_of_mem _ hc), List.reverse_cons,
      List.append_assoc, List.singleton_append]

theorem pieceOf_name : pieceOf name = .opening (styleName name) ∧ pieceOf ('/' :: name) = .closing (styleName name) := by
  have hwhole : name.takeWhile (· != '=') = name := by
    refine List.takeWhile_eq_self_iff.2 fun c hc => ?_
    have hletter := hname c hc
    rw [bne_iff_ne]
    rintro rfl
    exact absurd hletter (by decide)
  constructor
  · unfold pieceOf
    dsimp only
    rw [hwhole]
    split
    · exact absurd (hname '/' List.mem_cons_self) (by decide)
    · rfl
  · unfold pieceOf
    dsimp only
    rw [List.takeWhile_cons_of_pos (by decide), hwhole]
    rfl

/-- An escaped text between a tag and the one that closes it. -/
theorem matches_tagged (hne : name ≠ []) (h : Matches 0 cs) (s : String) :
    Matches 0 ('[' :: (name ++ ']' :: ((escape s).toList ++ '[' :: '/' :: (name ++ ']' :: cs)))) := by
  intro stack held
  have htag : isTag (name ++ ']' :: ((escape s).toList ++ '[' :: '/' :: (name ++ ']' :: cs))) = true := by
    obtain ⟨c, rest, rfl⟩ := List.exists_cons_of_ne_nil hne
    rw [List.cons_append, isTag, closes_name fun c hc => hname c (List.mem_cons_of_mem _ hc), opensTag]
    simpa using Or.inl (Or.inl (Or.inl (hname c List.mem_cons_self)))
  have hclosing : isTag ('/' :: (name ++ ']' :: cs)) = true := by
    rw [isTag, closes_name hname]
    rfl
  have hbehind : closes ('[' :: '/' :: (name ++ ']' :: cs)) = false := rfl
  obtain ⟨held', m, hread⟩ := exists_pieces_escape hbehind s []
  rw [pieces, if_neg (by decide), htag, if_pos (by decide), pieces_name hname, List.reverse_nil, List.nil_append,
    (pieceOf_name hname).1, hread, render?, Option.isSome_map, render?, pieces, if_neg (by decide), hclosing]
  -- A backslash at the end of the text may escape the closing tag; the tag then stays open.
  rcases Nat.mod_two_eq_zero_or_one m with heven | hodd
  · rw [heven, if_pos (by decide)]
    rw [show pieces (some []) (List.replicate (m / 2) '\\' ++ held') 0 ('/' :: (name ++ ']' :: cs)) =
        pieces (some ['/']) (List.replicate (m / 2) '\\' ++ held') 0 (name ++ ']' :: cs) from rfl, pieces_name hname,
      render?, Option.isSome_map]
    show (render? (styleName name :: stack) (pieceOf ('/' :: name) :: _)).isSome = true
    rw [(pieceOf_name hname).2, render?]
    split
    · exact h stack []
    · rw [if_pos (by simp)]
      exact h _ []
  · rw [hodd, if_neg (by decide), if_pos (by decide)]
    obtain ⟨held'', hslash⟩ := exists_pieces_cons (c := '/') (by decide) (m := 0) (name ++ ']' :: cs)
      (fun h => absurd h (by decide)) ('[' :: (List.replicate (m / 2) '\\' ++ held'))
    rw [hslash]
    have hplain : Matches 0 (name ++ ']' :: cs) := by
      rw [← List.singleton_append, ← List.append_assoc]
      refine h.plain 0 (isPlain_iff.2 ⟨by simp, fun c hc => ?_⟩)
      rcases List.mem_append.1 hc with hc | hc
      · have hletter := hname c hc
        constructor <;> rintro rfl <;> exact absurd hletter (by decide)
      · obtain rfl := List.mem_singleton.1 hc
        decide
    exact hplain _ _

end Tag

end Text.Markup

/-! ## Notices -/

namespace Notice

open Text.Markup (Matches isPlain isTagName matches_nil matches_escape matches_tagged)

/-- A text that may stand in front of every text whose tags match. -/
def Leads (s : String) : Prop := ∀ cs, Matches 0 cs → Matches 0 (s.toList ++ cs)

theorem Leads.append {s t : String} (hs : Leads s) (ht : Leads t) : Leads (s ++ t) := by
  intro cs h
  rw [String.toList_append, List.append_assoc]
  exact hs _ (ht cs h)

theorem leads_plain {s : String} (plain : isPlain s.toList = true) : Leads s := fun _ h => h.plain 0 plain

/-- A text with plain ones around it. -/
theorem Leads.between {front s back : String} (hs : Leads s) (hfront : isPlain front.toList = true)
    (hback : isPlain back.toList = true) : Leads (front ++ s ++ back) :=
  ((leads_plain hfront).append hs).append (leads_plain hback)

theorem Leads.matches {s : String} (hs : Leads s) : Matches 0 s.toList := by
  have h := hs [] (matches_nil 0)
  rwa [List.append_nil] at h

theorem leads_tagged (tag : List Char) (htag : isTagName tag = true) {opening closing : String}
    (hopening : opening.toList = '[' :: (tag ++ [']'])) (hclosing : closing.toList = '[' :: '/' :: (tag ++ [']'])) (s : String) :
    Leads (opening ++ Text.Markup.escape s ++ closing) := by
  intro cs h
  obtain ⟨hne, hletters⟩ := Text.Markup.isTagName_iff.1 htag
  have htagged := matches_tagged hletters hne h s
  simp only [String.toList_append, hopening, hclosing, List.append_assoc, List.cons_append, List.nil_append]
  exact htagged

theorem leads_code (name : String) : Leads (code name) :=
  leads_tagged "code".toList (by decide +kernel) (by decide +kernel) (by decide +kernel) name

theorem leads_path (name : String) : Leads (path name) :=
  leads_tagged "path".toList (by decide +kernel) (by decide +kernel) (by decide +kernel) name

/-- What is left to quote at the end is escaped. -/
theorem Leads.matches_escape {s : String} (hs : Leads s) (cause : String) : Matches 0 (s ++ Text.Markup.escape cause).toList := by
  have hend : Text.Markup.closes [] = false := rfl
  have h := Text.Markup.matches_escape hend matches_nil cause
  rw [List.append_nil] at h
  rw [String.toList_append]
  exact hs _ h

theorem isPlain_toString (n : Nat) : isPlain (toString n).toList = true := by
  refine Text.Markup.isPlain_iff.2 ⟨by simp, fun c hc => ?_⟩
  have hmem : c ∈ Nat.toDigits 10 n := by simpa using hc
  have hdigit := Nat.isDigit_of_mem_toDigits (by decide) (by decide) hmem
  constructor <;> rintro rfl <;> exact absurd hdigit (by decide)

/-- The tags of a message match, whatever it quotes. -/
theorem matches_message (n : Notice) : Matches 0 n.message.toList := by
  cases n with
  | ignored cause =>
    have hrest : ∀ m, Matches m (" Ignoring it.".toList ++ []) := fun m => (matches_nil 0).plain m (by decide +kernel)
    rw [List.append_nil] at hrest
    show Matches 0 (Text.Markup.escape cause.message ++ " Ignoring it.").toList
    rw [String.toList_append]
    exact matches_escape (by decide +kernel) hrest _
  | orderFallback member => exact ((leads_code member).between (by decide +kernel) (by decide +kernel)).matches
  | noAncestors set => exact ((leads_code set).between (by decide +kernel) (by decide +kernel)).matches
  | built name methods =>
    have hname : Leads ("Built composite " ++ code name ++ " with ") :=
      (leads_code name).between (by decide +kernel) (by decide +kernel)
    exact ((hname.append (leads_plain (isPlain_toString methods))).append (leads_plain (by decide +kernel))).matches
  | activated name => exact ((leads_code name).between (by decide +kernel) (by decide +kernel)).matches
  | loaded name file =>
    have hname : Leads ("Loaded " ++ code name ++ " from ") := (leads_code name).between (by decide +kernel) (by decide +kernel)
    exact ((hname.append (leads_path file)).append (leads_plain (by decide +kernel))).matches
  | written name file =>
    have hname : Leads ("Wrote and loaded " ++ code name ++ " from ") :=
      (leads_code name).between (by decide +kernel) (by decide +kernel)
    exact ((hname.append (leads_path file)).append (leads_plain (by decide +kernel))).matches
  | setback what file cause =>
    have hverb : Leads ("Could not " ++ what.verb ++ " cache artifact ") :=
      (leads_plain (by cases what <;> decide +kernel)).between (by decide +kernel) (by decide +kernel)
    have hfile : Leads ("Could not " ++ what.verb ++ " cache artifact " ++ path file ++ ": ") :=
      (hverb.append (leads_path file)).append (leads_plain (by decide +kernel))
    have hrest : ∀ m, Matches m (". ".toList ++ (what.remedy.toList ++ [])) := fun m =>
      ((matches_nil 0).plain 0 (by cases what <;> decide +kernel)).plain m (by decide +kernel)
    rw [List.append_nil] at hrest
    show Matches 0 ("Could not " ++ what.verb ++ " cache artifact " ++ path file ++ ": " ++ Text.Markup.escape (reason cause) ++
      ". " ++ what.remedy).toList
    rw [String.toList_append, String.toList_append, String.toList_append, List.append_assoc, List.append_assoc]
    exact hfile _ (matches_escape (by cases what <;> decide +kernel) hrest (reason cause))
  | definitionMissing file => exact ((leads_plain (by decide +kernel)).append (leads_path file)).matches
  | cannotRender file cause => exact ((leads_path file).between (by decide +kernel) (by decide +kernel)).matches_escape cause
  | cannotInspect target cause => exact ((leads_code target).between (by decide +kernel) (by decide +kernel)).matches_escape cause
  | cannotWrite file cause => exact ((leads_path file).between (by decide +kernel) (by decide +kernel)).matches_escape cause
  | rendered name file =>
    have hname : Leads ("Rendered " ++ code name ++ " to ") := (leads_code name).between (by decide +kernel) (by decide +kernel)
    exact (hname.append (leads_path file)).matches

/-- Every notice can be logged on every console. -/
theorem exists_log (n : Notice) (c : Console) : ∃ r, c.log n.level n.message = .ok r := by
  have hmatches : Matches 0 (n.level.sign ++ n.message).toList := by
    rw [String.toList_append]
    cases hlevel : n.level with
    | debug => exact matches_message n
    | _ => exact (matches_message n).plain 0 (by decide +kernel)
  obtain ⟨shown, hshown⟩ := Option.isSome_iff_exists.1 (hmatches [] [])
  unfold Console.log
  split
  · exact ⟨_, rfl⟩
  · unfold Console.linesOf Text.Markup.plain?
    rw [hshown]
    exact ⟨_, rfl⟩

end Notice

end Amalgam
