import Amalgam.Proofs.Blueprint.Claims
import Amalgam.Proofs.Blueprint.Swapping
import Amalgam.Proofs.Text.Split
import Mathlib.Data.List.Find

/-!
# Paths as keys

A text writes a reference (`SymbolRef.Writes`) if what is left of it without the white space around it falls into two parts at
its first colon, or else at its last dot, neither of them empty. The path of such a reference writes it again, so two of them
that have one path are one (`SymbolRef.path_eq_path_iff`), and every table by paths is a table by references
(`SymbolRef.KeptApart`). That is not so of other references: a module's name with a colon makes two of them alike.
-/

namespace Amalgam

open Text

namespace SymbolRef

variable {text : String} {r r' : SymbolRef} {core home name : List Char}

/-! ## What a text writes -/

/-- A text in two parts, at its first colon or else at its last dot; with neither, all of it is the second part. -/
inductive Divides : (core home name : List Char) → Prop where
  | colon {home name : List Char} (first : ':' ∉ home) : Divides (home ++ ':' :: name) home name
  | dot {home name : List Char} (no_colon : ':' ∉ home ++ '.' :: name) (last : '.' ∉ name) :
    Divides (home ++ '.' :: name) home name
  | whole {name : List Char} (no_colon : ':' ∉ name) (no_dot : '.' ∉ name) : Divides name [] name

theorem exists_divides (core : List Char) : ∃ home name, Divides core home name := by
  by_cases hcolon : ':' ∈ core
  · obtain ⟨home, name, rfl, hfirst⟩ := List.eq_append_cons_of_mem hcolon
    exact ⟨home, name, .colon hfirst⟩
  · by_cases hdot : '.' ∈ core
    · obtain ⟨after, before, hback, hlast⟩ := List.eq_append_cons_of_mem (List.mem_reverse.2 hdot)
      obtain rfl : core = before.reverse ++ '.' :: after.reverse := by
        rw [← List.reverse_reverse core, hback]
        simp
      exact ⟨_, _, .dot hcolon fun h => hlast (List.mem_reverse.1 h)⟩
    · exact ⟨_, _, .whole hcolon hdot⟩

theorem ofChars?_of_divides (h : Divides core home name) :
    ofChars? core = if home.isEmpty || name.isEmpty then none else some (home, name) := by
  have hne : ∀ {sep : Char} {cs : List Char}, sep ∉ cs → ∀ c ∈ cs, (c != sep) = true :=
    fun hsep c hc => bne_iff_ne.2 fun he => hsep (he ▸ hc)
  have hsep : ∀ {sep : Char} {cs : List Char}, ∀ c, (sep :: cs).head? = some c → (c != sep) = false := by
    rintro sep cs c hc
    cases hc
    exact bne_self_eq_false sep
  unfold ofChars?
  cases h with
  | colon hfirst =>
    have hcontains : (home ++ ':' :: name).contains ':' = true := by simp
    rw [hcontains, if_pos rfl, takeWhile_append_of_head (hne hfirst) hsep, dropWhile_append_of_head (hne hfirst) hsep]
    rfl
  | dot hcolon hlast =>
    have hback : (home ++ '.' :: name).reverse = name.reverse ++ '.' :: home.reverse := by simp
    have hlast' : '.' ∉ name.reverse := fun h => hlast (List.mem_reverse.1 h)
    have hcontains : (home ++ '.' :: name).contains ':' = false := by simpa using hcolon
    rw [hcontains, if_neg Bool.false_ne_true]
    dsimp only
    rw [hback, takeWhile_append_of_head (hne hlast') hsep, dropWhile_append_of_head (hne hlast') hsep, List.drop_one,
      List.tail_cons, List.reverse_reverse, List.reverse_reverse]
  | whole hcolon hdot =>
    have hall := hne fun h => hdot (List.mem_reverse.1 h)
    have hcontains : core.contains ':' = false := by simpa using hcolon
    rw [hcontains, if_neg Bool.false_ne_true]
    dsimp only
    rw [List.takeWhile_eq_self_iff.2 hall, List.dropWhile_eq_nil_iff.2 hall, List.reverse_reverse]
    rfl

/-- Without the white space around it, a text is a module and a qualified name. -/
structure Writes (text : String) (r : SymbolRef) : Prop where
  divides : ∃ core, IsCore text.toList core ∧ Divides core r.home.toList r.qualname.toList
  home_ne : r.home ≠ ""
  qualname_ne : r.qualname ≠ ""

/-- Without the white space around it, a text has no module or no qualified name. -/
def Lacks (text : String) : Prop :=
  ∃ core home name, IsCore text.toList core ∧ Divides core home name ∧ (home = [] ∨ name = [])

theorem parse?_eq_some_iff : parse? text = some r ↔ Writes text r := by
  unfold parse?
  constructor
  · intro h
    obtain ⟨⟨home, name⟩, hparts, rfl⟩ := Option.map_eq_some_iff.1 h
    obtain ⟨home', name', hdivides⟩ := exists_divides (trimList isBlank text.toList)
    rw [ofChars?_of_divides hdivides] at hparts
    split at hparts
    · cases hparts
    · rename_i hne
      cases hparts
      rw [Bool.or_eq_true, List.isEmpty_iff, List.isEmpty_iff, not_or] at hne
      refine ⟨⟨_, isCore_trimList _, by simpa using hdivides⟩, ?_, ?_⟩
      · simpa using hne.1
      · simpa using hne.2
  · rintro ⟨⟨core, hcore, hdivides⟩, hhome, hname⟩
    rw [← hcore.eq_trimList, ofChars?_of_divides hdivides, if_neg (by simp [hhome, hname])]
    simp

theorem parse?_eq_none_iff : parse? text = none ↔ Lacks text := by
  unfold parse?
  rw [Option.map_eq_none_iff]
  constructor
  · intro h
    obtain ⟨home, name, hdivides⟩ := exists_divides (trimList isBlank text.toList)
    rw [ofChars?_of_divides hdivides] at h
    refine ⟨_, home, name, isCore_trimList _, hdivides, ?_⟩
    split at h
    · rename_i hempty
      rwa [Bool.or_eq_true, List.isEmpty_iff, List.isEmpty_iff] at hempty
    · cases h
  · rintro ⟨core, home, name, hcore, hdivides, hempty⟩
    rw [← hcore.eq_trimList, ofChars?_of_divides hdivides, if_pos]
    rwa [Bool.or_eq_true, List.isEmpty_iff, List.isEmpty_iff]

/-! ## The references that are written -/

theorem Divides.colon_not_mem (h : Divides core home name) : ':' ∉ home := by
  cases h with
  | colon first => exact first
  | dot no_colon _ => exact fun hmem => no_colon (List.mem_append_left _ hmem)
  | whole _ _ => exact List.not_mem_nil

theorem Divides.head? (h : Divides core home name) (ne : home ≠ []) : core.head? = home.head? := by
  cases h with
  | colon _ => exact List.head?_append_of_ne_nil _ ne
  | dot _ _ => exact List.head?_append_of_ne_nil _ ne
  | whole _ _ => exact absurd rfl ne

theorem Divides.getLast? (h : Divides core home name) (ne : name ≠ []) : core.getLast? = name.getLast? := by
  have hcons : ∀ sep : Char, (home ++ sep :: name).getLast? = name.getLast? := fun sep => by
    rw [List.append_cons, List.getLast?_append_of_ne_nil _ ne]
  cases h with
  | colon _ => exact hcons ':'
  | dot _ _ => exact hcons '.'
  | whole _ _ => rfl

/-- A reference whose path falls into its own two parts again. -/
structure IsAddress (r : SymbolRef) : Prop where
  home_ne : r.home ≠ ""
  qualname_ne : r.qualname ≠ ""
  no_colon : ':' ∉ r.home.toList
  head : ∀ c, r.home.toList.head? = some c → isBlank c = false
  last : ∀ c, r.qualname.toList.getLast? = some c → isBlank c = false

theorem Writes.isAddress (h : Writes text r) : r.IsAddress := by
  obtain ⟨core, hcore, hdivides⟩ := h.divides
  refine ⟨h.home_ne, h.qualname_ne, hdivides.colon_not_mem, fun c hc => hcore.head c ?_, fun c hc => hcore.last c ?_⟩
  · rwa [hdivides.head? (by simpa using h.home_ne)]
  · rwa [hdivides.getLast? (by simpa using h.qualname_ne)]

theorem IsAddress.writes_path (h : r.IsAddress) : Writes r.path r := by
  have hdivides : Divides r.path.toList r.home.toList r.qualname.toList := by
    have hpath : r.path.toList = r.home.toList ++ ':' :: r.qualname.toList := by simp [path]
    rw [hpath]
    exact .colon h.no_colon
  refine ⟨⟨r.path.toList, isCore_self (fun c hc => h.head c ?_) fun c hc => h.last c ?_, hdivides⟩, h.home_ne, h.qualname_ne⟩
  · rwa [← hdivides.head? (by simpa using h.home_ne)]
  · rwa [← hdivides.getLast? (by simpa using h.qualname_ne)]

theorem IsAddress.parse?_path (h : r.IsAddress) : parse? r.path = some r := parse?_eq_some_iff.2 h.writes_path

theorem IsAddress.path_eq_path_iff (h : r.IsAddress) (h' : r'.IsAddress) : r.path = r'.path ↔ r = r' :=
  ⟨fun he => Option.some.inj (by rw [← h.parse?_path, he, h'.parse?_path]), fun he => he ▸ rfl⟩

/-- Other references may share a path. -/
example : (⟨"a", "b:c"⟩ : SymbolRef).path = (⟨"a:b", "c"⟩ : SymbolRef).path := rfl

end SymbolRef

/-! ## Tables by paths -/

/-- What is written last under a key is found. -/
theorem Entries.get?_ofList {α : Type} (es : List (String × α)) (key : String) :
    (ofList es).get? key = (es.reverse.find? fun e => e.1 = key).map Prod.snd := by
  suffices ∀ t : Entries α, (es.foldl (fun t e => t.put e.1 e.2) t).get? key =
      ((es.reverse.find? fun e => e.1 = key).map Prod.snd).or (t.get? key) by
    rw [ofList, this [], get?, Option.or_none]
  induction es with
  | nil => exact fun t => rfl
  | cons e es ih =>
    intro t
    rw [List.foldl_cons, ih, List.reverse_cons, List.find?_append, Option.map_or, Option.or_assoc]
    congr 1
    by_cases h : e.1 = key
    · subst h
      simp
    · rw [get?_put_of_ne _ _ fun he => h he.symm]
      simp [h]

namespace SymbolRef

/-- Among references of a kind, every table by paths is one by the references themselves. -/
structure KeptApart (kind : SymbolRef → Prop) : Prop where
  /-- The last manifest of a class is the one that is served for it. -/
  manifests {ms : List Manifest} (among : ∀ m ∈ ms, kind m.ref) {r : SymbolRef} (hr : kind r) :
    (Provider.table ms).get? r.path = ms.reverse.find? fun m => m.ref = r
  /-- A symbol is found exactly if it is claimed, and it is that symbol. -/
  symbols {claims : Blueprint.Claims} (among : ∀ c ∈ claims, kind c.1) {r : SymbolRef} (hr : kind r) (found : SymbolRef) :
    (Blueprint.symbolsOf claims).get? r.path = some found ↔ found = r ∧ ∃ c ∈ claims, c.1 = r
  /-- The live object of a symbol is the first that is claimed for it. -/
  bindings {claims : Blueprint.Claims} (among : ∀ c ∈ claims, kind c.1) {r : SymbolRef} (hr : kind r) :
    (Blueprint.bindingsOf claims).get? r.path = claims.findSome? fun c => if c.1 = r then c.2 else none
  /-- The spec of a function is the last that is registered with it. -/
  functions {specs : Entries CombinatorSpec} (among : ∀ e ∈ specs, kind e.2.function) {r : SymbolRef} (hr : kind r) :
    (Blueprint.specsByPath specs).get? r.path = (specs.reverse.find? fun e => e.2.function = r).map Prod.snd
  /-- An order passes exactly if the classes that it names take part. -/
  orders {σ : Type} {participants : List SymbolRef} (among : ∀ r ∈ participants, kind r) {spec : CombinatorSpec}
    (named : ∀ r ∈ spec.order.getD [], kind r) (member : String) (s : σ) :
    (CombinatorSpec.checkOrder member participants spec).runFrom s = (.ok (), s) ↔
      ∀ r ∈ spec.order.getD [], r ∈ participants
  /-- Exactly the contributors among the classes that an order names are joined, in that order. -/
  joined {σ : Type} {contributors : List SymbolRef} (among : ∀ r ∈ contributors, kind r) {spec : CombinatorSpec}
    {order : List SymbolRef} (given : spec.order = some order) (named : ∀ r ∈ order, kind r)
    (some_joined : ∃ r ∈ order, r ∈ contributors) (member : String) (t : Planning σ) :
    (CombinatorSpec.resolve member contributors (some spec)).runFrom t =
      (.ok (some spec, order.filter fun r => decide (r ∈ contributors)), t)
  /-- A repetition is found exactly if a class comes twice. -/
  duplicates {rs : List SymbolRef} (among : ∀ r ∈ rs, kind r) : Blueprint.repeated? [] rs = none ↔ rs.Nodup

section

variable {kind : SymbolRef → Prop} (inj : ∀ {r r'}, kind r → kind r' → (r.path = r'.path ↔ r = r'))

include inj

/-- To look for a path is to look for its reference. -/
theorem find?_path {α : Type} {xs : List α} {ref : α → SymbolRef} (among : ∀ x ∈ xs, kind (ref x)) {r : SymbolRef}
    (hr : kind r) : (xs.find? fun x => decide ((ref x).path = r.path)) = xs.find? fun x => decide (ref x = r) :=
  List.find?_congr fun x hx => decide_eq_decide.2 (inj (among x hx) hr)

theorem contains_path {rs : List SymbolRef} (among : ∀ r ∈ rs, kind r) {r : SymbolRef} (hr : kind r) :
    (rs.map path).contains r.path = decide (r ∈ rs) := by
  rw [Bool.eq_iff_iff, List.contains_iff_mem, decide_eq_true_eq, List.mem_map]
  exact ⟨fun ⟨r', hr', he⟩ => (inj (among r' hr') hr).1 he ▸ hr', fun h => ⟨r, h, rfl⟩⟩

theorem get?_table {ms : List Manifest} (among : ∀ m ∈ ms, kind m.ref) {r : SymbolRef} (hr : kind r) :
    (Provider.table ms).get? r.path = ms.reverse.find? fun m => m.ref = r := by
  rw [Provider.table, Entries.get?_ofList, ← List.map_reverse, List.find?_map, Option.map_map,
    ← find?_path inj (fun m hm => among m (List.mem_reverse.1 hm)) hr]
  exact Option.map_id_apply

theorem get?_symbolsOf_eq_some_iff {claims : Blueprint.Claims} (among : ∀ c ∈ claims, kind c.1) {r : SymbolRef}
    (hr : kind r) (found : SymbolRef) :
    (Blueprint.symbolsOf claims).get? r.path = some found ↔ found = r ∧ ∃ c ∈ claims, c.1 = r := by
  rw [Blueprint.get?_symbolsOf, find?_path inj among hr, Option.map_eq_some_iff]
  constructor
  · rintro ⟨c, hc, rfl⟩
    have he : c.1 = r := by simpa using List.find?_some hc
    exact ⟨he, c, List.mem_of_find?_eq_some hc, he⟩
  · rintro ⟨rfl, c, hc, he⟩
    obtain ⟨c', hc'⟩ := Option.isSome_iff_exists.1 (List.find?_isSome (p := fun c => decide (c.1 = found)).2 ⟨c, hc, decide_eq_true he⟩)
    exact ⟨c', hc', by simpa using List.find?_some hc'⟩

theorem get?_bindingsOf_path {claims : Blueprint.Claims} (among : ∀ c ∈ claims, kind c.1) {r : SymbolRef} (hr : kind r) :
    (Blueprint.bindingsOf claims).get? r.path = claims.findSome? fun c => if c.1 = r then c.2 else none := by
  rw [Blueprint.get?_bindingsOf]
  induction claims with
  | nil => rfl
  | cons c claims ih =>
    have hc : c.1.path = r.path ↔ c.1 = r := inj (among c List.mem_cons_self) hr
    simp only [List.findSome?_cons, hc, ih fun c hc => among c (List.mem_cons_of_mem _ hc)]

theorem get?_specsByPath {specs : Entries CombinatorSpec} (among : ∀ e ∈ specs, kind e.2.function) {r : SymbolRef}
    (hr : kind r) : (Blueprint.specsByPath specs).get? r.path = (specs.reverse.find? fun e => e.2.function = r).map Prod.snd := by
  rw [Blueprint.specsByPath, Entries.get?_ofList, ← List.map_reverse, List.find?_map, Option.map_map,
    ← find?_path inj (fun e he => among e (List.mem_reverse.1 he)) hr]
  rfl

theorem runFrom_checkOrder_eq_ok_iff {σ : Type} {participants : List SymbolRef} (among : ∀ r ∈ participants, kind r)
    {spec : CombinatorSpec} (named : ∀ r ∈ spec.order.getD [], kind r) (member : String) (s : σ) :
    (CombinatorSpec.checkOrder member participants spec).runFrom s = (.ok (), s) ↔
      ∀ r ∈ spec.order.getD [], r ∈ participants := by
  unfold CombinatorSpec.checkOrder
  cases hfind : (spec.order.getD []).find? fun r => !(participants.map path).contains r.path with
  | none =>
    refine iff_of_true rfl fun r hr => ?_
    have hknown := List.find?_eq_none.1 hfind r hr
    rw [contains_path inj among (named r hr)] at hknown
    simpa using hknown
  | some r =>
    have hr := List.mem_of_find?_eq_some hfind
    have hstranger := List.find?_some hfind
    rw [contains_path inj among (named r hr)] at hstranger
    refine iff_of_false (fun h => by cases h) fun hall => ?_
    simp [hall r hr] at hstranger

theorem runFrom_resolve_of_order {σ : Type} {contributors : List SymbolRef} (among : ∀ r ∈ contributors, kind r)
    {spec : CombinatorSpec} {order : List SymbolRef} (given : spec.order = some order) (named : ∀ r ∈ order, kind r)
    (some_joined : ∃ r ∈ order, r ∈ contributors) (member : String) (t : Planning σ) :
    (CombinatorSpec.resolve member contributors (some spec)).runFrom t =
      (.ok (some spec, order.filter fun r => decide (r ∈ contributors)), t) := by
  have hfilter : (order.filter fun r => (contributors.map path).contains r.path) =
      order.filter fun r => decide (r ∈ contributors) :=
    List.filter_congr fun r hr => contains_path inj among (named r hr)
  have hne : ¬(order.filter fun r => decide (r ∈ contributors)).isEmpty = true := by
    obtain ⟨r, hr, hmem⟩ := some_joined
    rw [List.isEmpty_iff]
    exact List.ne_nil_of_mem (List.mem_filter.2 ⟨hr, decide_eq_true hmem⟩)
  unfold CombinatorSpec.resolve
  dsimp only
  rw [given]
  dsimp only
  rw [hfilter, if_neg hne]
  rfl

theorem repeated?_eq_none_iff_nodup {rs : List SymbolRef} (among : ∀ r ∈ rs, kind r) :
    Blueprint.repeated? [] rs = none ↔ rs.Nodup := by
  rw [Blueprint.repeated?_eq_none_iff]
  exact ⟨List.Nodup.of_map _, List.Nodup.map_on fun r hr r' hr' => (inj (among r hr) (among r' hr')).1⟩

/-- References that differ in their paths are kept apart. -/
theorem keptApart_of_path : KeptApart kind where
  manifests := get?_table inj
  symbols := get?_symbolsOf_eq_some_iff inj
  bindings := get?_bindingsOf_path inj
  functions := get?_specsByPath inj
  orders := runFrom_checkOrder_eq_ok_iff inj
  joined := runFrom_resolve_of_order inj
  duplicates := repeated?_eq_none_iff_nodup inj

end

end SymbolRef

namespace Provider

open SymbolRef Text

variable {σ : Type} {s : σ} {text : String} {r : SymbolRef}

theorem parse_eq_ok_iff : (parse text : Act σ SymbolRef).runFrom s = (.ok r, s) ↔ Writes text r := by
  rw [← parse?_eq_some_iff, parse]
  cases parse? text with
  | none => exact iff_of_false (fun h => by cases h) (fun h => by cases h)
  | some r' =>
    rw [Act.runFrom_pure]
    simp

theorem parse_eq_error_iff :
    (parse text : Act σ SymbolRef).runFrom s = (.error (.refusal (.badReference text)), s) ↔ Lacks text := by
  rw [← parse?_eq_none_iff, parse]
  cases parse? text with
  | none => exact iff_of_true rfl rfl
  | some r' => exact iff_of_false (fun h => by cases h) (fun h => by cases h)

/--
A text is read as the reference that it writes, and refused exactly if it lacks one of the two parts. The path of a reference
that is read is read as this reference, so references that are read differ in their paths, and tables by paths keep them
apart.
-/
theorem parse_faithful (s : σ) :
    (∀ text r, (parse text : Act σ SymbolRef).runFrom s = (.ok r, s) ↔ Writes text r) ∧
    (∀ text, (parse text : Act σ SymbolRef).runFrom s = (.error (.refusal (.badReference text)), s) ↔ Lacks text) ∧
    (∀ text, (∃ r, Writes text r) ∨ Lacks text) ∧
    (∀ text r, (parse text : Act σ SymbolRef).runFrom s = (.ok r, s) →
      (parse r.path : Act σ SymbolRef).runFrom s = (.ok r, s)) ∧
    (∀ text text' r r', (parse text : Act σ SymbolRef).runFrom s = (.ok r, s) →
      (parse text' : Act σ SymbolRef).runFrom s = (.ok r', s) → (r.path = r'.path ↔ r = r')) ∧
    KeptApart fun r => ∃ text, (parse text : Act σ SymbolRef).runFrom s = (.ok r, s) := by
  have haddress : ∀ {r}, (∃ text, (parse text : Act σ SymbolRef).runFrom s = (.ok r, s)) → r.IsAddress :=
    fun ⟨_, h⟩ => (parse_eq_ok_iff.1 h).isAddress
  refine ⟨fun text r => parse_eq_ok_iff, fun text => parse_eq_error_iff, fun text => ?_, fun text r h => ?_,
    fun text text' r r' h h' => ?_, ?_⟩
  · cases h : parse? text with
    | none => exact Or.inr (parse?_eq_none_iff.1 h)
    | some r => exact Or.inl ⟨r, parse?_eq_some_iff.1 h⟩
  · exact parse_eq_ok_iff.2 (haddress ⟨text, h⟩).writes_path
  · exact (haddress ⟨text, h⟩).path_eq_path_iff (haddress ⟨text', h'⟩)
  · exact keptApart_of_path fun h h' => (haddress h).path_eq_path_iff (haddress h')

/-- A bag on a stall by the shorthand, and the second item of that name by a text with two colons and a blank behind the first. -/
theorem parse_faithful_stall :
    (parse "\t stall.Bag \n" : Act Unit SymbolRef).runFrom () = (.ok ⟨"stall", "Bag"⟩, ()) ∧
    (parse "stall.goods: Bag#2:x.y\r\n" : Act Unit SymbolRef).runFrom () = (.ok ⟨"stall.goods", " Bag#2:x.y"⟩, ()) ∧
    (parse "stall.goods: Bag#2:x.y" : Act Unit SymbolRef).runFrom () = (.ok ⟨"stall.goods", " Bag#2:x.y"⟩, ()) ∧
    (parse "stall." : Act Unit SymbolRef).runFrom () = (.error (.refusal (.badReference "stall.")), ()) ∧
    (Blueprint.repeated? [] [⟨"stall", "Bag"⟩, ⟨"stall.goods", " Bag#2:x.y"⟩] = none ↔
      [(⟨"stall", "Bag"⟩ : SymbolRef), ⟨"stall.goods", " Bag#2:x.y"⟩].Nodup) := by
  have hbag : (parse "\t stall.Bag \n" : Act Unit SymbolRef).runFrom () = (.ok ⟨"stall", "Bag"⟩, ()) := by decide +kernel
  have hitem : (parse "stall.goods: Bag#2:x.y\r\n" : Act Unit SymbolRef).runFrom () =
      (.ok ⟨"stall.goods", " Bag#2:x.y"⟩, ()) := by decide +kernel
  obtain ⟨-, hrefused, -, hagain, -, hapart⟩ := parse_faithful ()
  refine ⟨hbag, hitem, hagain _ _ hitem, (hrefused _).2 ?_, hapart.duplicates fun r hr => ?_⟩
  · have hcore : IsCore "stall.".toList ("stall".toList ++ ['.']) := isCore_iff.2 (by decide +kernel)
    exact ⟨_, _, [], hcore, .dot (by decide) List.not_mem_nil, Or.inr rfl⟩
  · rcases List.mem_pair.1 hr with rfl | rfl
    · exact ⟨_, hbag⟩
    · exact ⟨_, hitem⟩

end Provider

end Amalgam
