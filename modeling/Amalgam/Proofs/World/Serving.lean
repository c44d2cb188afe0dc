import Amalgam.Proofs.World.Identity

/-!
# What was served is served again

A roster never forgets (`Roster.Grows`), so a class that was resolved has the same reference ever after
(`Roster.resolve_settles`) and a manifest that was read stays as it is. A class that cannot be resolved leaves no trace
(`Roster.resolve_eq_error`), and the manifest of a claimed class never fails (`Roster.exists_manifest`).
-/

namespace Amalgam

namespace Roster

variable {w : World} {c c' d : Roster}

/-- All that a path stands for, and all that was read of it, is kept. -/
structure Grows (c c' : Roster) : Prop where
  classes : c.Extends c'
  manifests : ∀ path m, c.manifests.get? path = some m → c'.manifests.get? path = some m

theorem Grows.refl (c : Roster) : c.Grows c := ⟨Extends.refl c, fun _ _ h => h⟩

theorem Grows.trans (h : c.Grows c') (h' : c'.Grows d) : c.Grows d :=
  ⟨h.classes.trans h'.classes, fun path m hm => h'.manifests path m (h.manifests path m hm)⟩

/-- Manifests are filed under the paths of their classes, and the sets they name are claimed. -/
structure Sound (c : Roster) : Prop where
  filed : ∀ e ∈ c.manifests, e.2.ref.path = e.1
  listed : c.Listed

/-- A roster may grow to one that is sound. -/
structure Precedes (c stop : Roster) : Prop where
  grows : c.Grows stop
  sound : stop.Sound

theorem Grows.precedes {stop : Roster} (h : c.Grows c') (h' : c'.Precedes stop) : c.Precedes stop :=
  ⟨h.trans h'.grows, h'.sound⟩

/-- The states of a provider of live classes: whatever it was asked before, in whichever worlds. -/
inductive Reachable : Roster → Prop
  | new : Reachable {}
  | resolve {c : Roster} (w : World) (t : TypeLike) : Reachable c → Reachable ((Roster.resolve w t).runFrom c).2
  | manifest {c : Roster} (w : World) (r : SymbolRef) : Reachable c → Reachable ((Roster.manifest w r).runFrom c).2

/-! ## Claims and finds -/

/-- A class that has a reference keeps it, since those tried before it keep standing for other classes. -/
theorem choose_settles {id : Nat} {r : SymbolRef} (hext : c.Extends d)
    (hid : d.classes.get? (c.choose id r).path = some id) : d.choose id r = c.choose id r := by
  rw [choose_eq] at hid
  rw [choose_eq, choose_eq]
  generalize hn : firstFree (fun n => (c.classes.get? (nthRef r n).path).all (· == id)) c.classes.length 1 = n at hid
  have hearlier : ∀ k, 1 ≤ k → k < n → (d.classes.get? (nthRef r k).path).all (· == id) = false := by
    intro k h1 hk
    have htaken := not_free_of_lt_firstFree _ _ 1 k h1 (hn ▸ hk)
    cases hget : c.classes.get? (nthRef r k).path with
    | none => simp [hget] at htaken
    | some other => simpa [hext _ _ hget, hget] using htaken
  generalize hm : firstFree (fun n => (d.classes.get? (nthRef r n).path).all (· == id)) d.classes.length 1 = m
  have hm1 : 1 ≤ m := hm ▸ le_firstFree _ _ _
  have hn1 : 1 ≤ n := hn ▸ le_firstFree _ _ _
  have hfree : (d.classes.get? (nthRef r m).path).all (· == id) = true := by
    cases hget : d.classes.get? (nthRef r m).path with
    | none => rfl
    | some other =>
      have : other = id := choose_free d id r (by rwa [choose_eq, hm])
      simp [this]
  have hge : n ≤ m := by
    by_contra hlt
    rw [hearlier m hm1 (by omega)] at hfree
    cases hfree
  have hle : m ≤ n := by
    by_contra hlt
    have := not_free_of_lt_firstFree _ _ 1 n hn1 (hm ▸ (by omega : n < m))
    simp [hid] at this
  rw [Nat.le_antisymm hle hge]

theorem grows_of_classes (hext : c.Extends c') (hmanifests : c'.manifests = c.manifests) : c.Grows c' :=
  ⟨hext, fun path m h => by rwa [hmanifests]⟩

theorem Sound.of_extends (h : c.Sound) (hext : c.Extends c') (hmanifests : c'.manifests = c.manifests) : c'.Sound where
  filed e he := h.filed e (hmanifests ▸ he)
  listed e he r hr := hext.mem_keys (h.listed e (hmanifests ▸ he) r hr)

/-- A class that is claimed is found, and the roster stays as it is. -/
theorem find_settles {r : SymbolRef} {id : Nat} (h : c.classes.get? r.path = some id) :
    (find w r).runFrom c = (.ok id, c) := by
  unfold find
  simp [Act.runFrom_bind, h]

/-- A class that is not found leaves no trace. -/
theorem find_eq_error {r : SymbolRef} {e : Failure} (h : (find w r).runFrom c = (.error e, c')) :
    c' = c ∧ r.path ∉ c.classes.keys := by
  unfold find at h
  rw [Act.runFrom_bind, Act.runFrom_get] at h
  dsimp only at h
  cases hfound : c.classes.get? r.path with
  | some other => simp [hfound] at h
  | none =>
    refine ⟨?_, (Entries.get?_eq_none_iff _ _).1 hfound⟩
    simp only [hfound, Act.runFrom_bind, Act.runFrom_ofExcept] at h
    cases himport : w.importSymbol r with
    | error e =>
      rw [himport] at h
      cases h
      rfl
    | ok v =>
      rw [himport] at h
      cases v <;> cases h
      all_goals rfl

/-! ## Resolving -/

/-- A class that cannot be resolved leaves no trace. -/
theorem resolve_eq_error {t : TypeLike} {e : Failure} (h : (resolve w t).runFrom c = (.error e, c')) : c' = c := by
  have hfind : ∀ {r : SymbolRef}, (find w r >>= fun _ => pure r).runFrom c = (.error e, c') → c' = c := by
    intro r h
    rw [Act.runFrom_bind] at h
    generalize hrun : (find w r).runFrom c = done at h
    obtain ⟨outcome, d⟩ := done
    cases outcome with
    | ok id => cases h
    | error e =>
      cases h
      exact (find_eq_error hrun).1
  cases t with
  | text path =>
    change (Provider.parse path >>= fun r => find w r >>= fun _ => pure r).runFrom c = _ at h
    rw [Act.runFrom_bind] at h
    unfold Provider.parse at h
    cases hp : SymbolRef.parse? path with
    | none =>
      simp only [hp] at h
      cases h
      rfl
    | some r =>
      simp only [hp, Act.runFrom_pure] at h
      exact hfind h
  | ref r => exact hfind h
  | live id r => cases h
  | other shown =>
    cases h
    rfl

/-- A class that is resolved has the same reference ever after, and asking for it again changes nothing. -/
theorem resolve_settles {t : TypeLike} {r : SymbolRef} (h : (resolve w t).runFrom c = (.ok r, c'))
    (later : c'.Extends d) : (resolve w t).runFrom d = (.ok r, d) := by
  cases t with
  | text path =>
    obtain ⟨parsed, u, hparse, h⟩ := Act.bind_eq_ok.1 h
    obtain ⟨id, v, hid, h⟩ := Act.bind_eq_ok.1 h
    cases h
    refine Act.bind_eq_ok.2 ⟨r, d, ?_, Act.bind_eq_ok.2 ⟨id, d, find_settles (later _ _ (get?_of_find hid)), rfl⟩⟩
    unfold Provider.parse at hparse ⊢
    cases hp : SymbolRef.parse? path <;> rw [hp] at hparse <;> cases hparse
    rfl
  | ref r' =>
    obtain ⟨id, v, hid, h⟩ := Act.bind_eq_ok.1 h
    cases h
    exact Act.bind_eq_ok.2 ⟨id, d, find_settles (later _ _ (get?_of_find hid)), rfl⟩
  | live id r' =>
    obtain ⟨hext, hclasses⟩ := claim_eq_ok h
    have hr : c.choose id (w.refOf id) = r := by
      cases h
      rfl
    have hid : d.classes.get? r.path = some id := later _ _ (by rw [hclasses, Entries.get?_put_self])
    have hchoose : d.choose id (w.refOf id) = r := by
      rw [choose_settles (hext.trans later) (by rwa [hr]), hr]
    show (Except.ok (d.choose id (w.refOf id)), { d with classes := d.classes.put (d.choose id (w.refOf id)).path id }) = _
    rw [hchoose, (Entries.put_eq_self_iff _ _ _).2 hid]
  | other shown => cases h

theorem mem_keys_of_resolve {t : TypeLike} {r : SymbolRef} (h : (resolve w t).runFrom c = (.ok r, c')) :
    r.path ∈ c'.classes.keys := by
  cases t with
  | text path =>
    obtain ⟨parsed, u, hparse, h⟩ := Act.bind_eq_ok.1 h
    obtain ⟨id, v, hid, h⟩ := Act.bind_eq_ok.1 h
    cases h
    exact Entries.mem_keys_of_get? (get?_of_find hid)
  | ref r' =>
    obtain ⟨id, v, hid, h⟩ := Act.bind_eq_ok.1 h
    cases h
    exact Entries.mem_keys_of_get? (get?_of_find hid)
  | live id r' =>
    rw [(claim_eq_ok h).2]
    exact Entries.mem_keys_of_get? (Entries.get?_put_self _ _ _)
  | other shown => cases h

/-- Resolving reads no manifest. -/
theorem manifests_after_resolve (c : Roster) (t : TypeLike) : ((resolve w t).runFrom c).2.manifests = c.manifests := by
  generalize hrun : (resolve w t).runFrom c = done
  obtain ⟨outcome, d⟩ := done
  cases outcome with
  | ok r => exact manifests_resolve hrun
  | error e => rw [resolve_eq_error hrun]

/-- Resolving keeps what is there, whether it succeeds or not. -/
theorem future_resolve (hc : c.Sound) (t : TypeLike) :
    c.Grows ((resolve w t).runFrom c).2 ∧ ((resolve w t).runFrom c).2.Sound := by
  have hext := resolve_extends (w := w) c t c (Extends.refl c)
  exact ⟨grows_of_classes hext (manifests_after_resolve c t), hc.of_extends hext (manifests_after_resolve c t)⟩

/-! ## Manifests -/

theorem exists_claimAll (ids : List Nat) (c : Roster) : ∃ refs c', (ids.mapM (claim w)).runFrom c = (.ok refs, c') := by
  induction ids generalizing c with
  | nil => exact ⟨[], c, rfl⟩
  | cons id ids ih =>
    obtain ⟨r, u, hr⟩ : ∃ r u, (claim w id).runFrom c = (.ok r, u) := ⟨_, _, rfl⟩
    obtain ⟨refs, c', hrefs⟩ := ih u
    rw [List.mapM_cons]
    exact ⟨_, _, Act.bind_eq_ok.2 ⟨r, u, hr, Act.bind_eq_ok.2 ⟨refs, c', hrefs, rfl⟩⟩⟩

/-- Only a class that is not found has no manifest, and asking for one leaves no trace then. -/
theorem manifest_eq_error {r : SymbolRef} {e : Failure} (h : (manifest w r).runFrom c = (.error e, c')) :
    c' = c ∧ r.path ∉ c.classes.keys := by
  unfold manifest at h
  rw [Act.runFrom_bind, Act.runFrom_get] at h
  dsimp only at h
  cases hcached : c.manifests.get? r.path with
  | some m => simp [hcached] at h
  | none =>
    simp only [hcached] at h
    rw [Act.runFrom_bind] at h
    generalize hrun : (find w r).runFrom c = done at h
    obtain ⟨outcome, u⟩ := done
    cases outcome with
    | error e' =>
      cases h
      exact find_eq_error hrun
    | ok id =>
      obtain ⟨sets, v, hsets⟩ := exists_claimAll (w := w) (w.capabilityAncestors id) u
      dsimp only at h
      rw [Act.runFrom_bind, hsets] at h
      cases h

theorem exists_manifest {r : SymbolRef} (h : r.path ∈ c.classes.keys) :
    ∃ m c', (manifest w r).runFrom c = (.ok m, c') := by
  generalize hrun : (manifest w r).runFrom c = done
  obtain ⟨outcome, c'⟩ := done
  cases outcome with
  | ok m => exact ⟨m, c', rfl⟩
  | error e => exact absurd h (manifest_eq_error hrun).2

/-- A manifest that was served is kept. -/
theorem get?_of_manifest {r : SymbolRef} {m : Manifest} (h : (manifest w r).runFrom c = (.ok m, c')) :
    c'.manifests.get? r.path = some m := by
  rcases manifest_cases h with ⟨hfound, rfl⟩ | ⟨-, -, -, hmanifests, -⟩
  · exact hfound
  · rw [hmanifests, Entries.get?_put_self]

/-- Asking for a manifest keeps what is there, whether it is served or not. -/
theorem future_manifest (hc : c.Sound) (r : SymbolRef) :
    c.Grows ((manifest w r).runFrom c).2 ∧ ((manifest w r).runFrom c).2.Sound := by
  generalize hrun : (manifest w r).runFrom c = done
  obtain ⟨outcome, d⟩ := done
  cases outcome with
  | error e =>
    obtain rfl := (manifest_eq_error hrun).1
    exact ⟨Grows.refl d, hc⟩
  | ok m =>
    have hlisted := (claimed_of_manifest hc.listed hrun).2.1
    rcases manifest_cases hrun with ⟨-, rfl⟩ | ⟨hnone, ⟨id, sets, -, hm⟩, hext, hmanifests, -⟩
    · exact ⟨Grows.refl d, hc⟩
    · refine ⟨⟨hext, fun path m' hm' => ?_⟩, fun e he => ?_, hlisted⟩
      · have hne : path ≠ r.path := by
          intro heq
          rw [heq, hnone] at hm'
          cases hm'
        rw [hmanifests, Entries.get?_put_of_ne _ _ hne, hm']
      · rw [hmanifests] at he
        rcases Entries.mem_put he with he | rfl
        · exact hc.filed e he
        · rw [hm, ref_inspect]

/-- A provider of live classes is in a sound state at all times. -/
theorem Reachable.sound (h : c.Reachable) : c.Sound := by
  induction h with
  | new => exact ⟨fun e he => absurd he List.not_mem_nil, fun e he => absurd he List.not_mem_nil⟩
  | resolve w t _ ih => exact (future_resolve ih t).2
  | manifest w r _ ih => exact (future_manifest ih r).2

/-- The manifests of several classes, as far as they are served. -/
def serve (w : World) : List SymbolRef → Act Roster (List Manifest)
  | [] => pure []
  | r :: rest => fun c =>
    match (manifest w r).runFrom c with
    | (.ok m, c) => (do return m :: (← serve w rest)).runFrom c
    | (.error _, c) => (serve w rest).runFrom c

theorem exists_serve (w : World) (rs : List SymbolRef) (c : Roster) : ∃ ms d, (serve w rs).runFrom c = (.ok ms, d) := by
  induction rs generalizing c with
  | nil => exact ⟨[], c, rfl⟩
  | cons r rs ih =>
    have hrun : (serve w (r :: rs)).runFrom c = match (manifest w r).runFrom c with
        | (.ok m, c) => (do return m :: (← serve w rs)).runFrom c
        | (.error _, c) => (serve w rs).runFrom c := rfl
    rw [hrun]
    generalize (manifest w r).runFrom c = done
    obtain ⟨outcome, u⟩ := done
    obtain ⟨ms, d, hms⟩ := ih u
    cases outcome with
    | error e => exact ⟨ms, d, hms⟩
    | ok m => exact ⟨m :: ms, d, Act.bind_eq_ok.2 ⟨ms, d, hms, rfl⟩⟩

/-- Each of the manifests served is kept under its path, and no class that is claimed is left out. -/
theorem serve_eq_ok (hc : c.Sound) {rs : List SymbolRef} {ms : List Manifest}
    (h : (serve w rs).runFrom c = (.ok ms, d)) : c.Grows d ∧ d.Sound ∧
      (∀ m ∈ ms, d.manifests.get? m.ref.path = some m) ∧
      ∀ r ∈ rs, r.path ∈ c.classes.keys → ∃ m ∈ ms, d.manifests.get? r.path = some m := by
  induction rs generalizing c ms with
  | nil =>
    cases h
    exact ⟨Grows.refl _, hc, fun _ h => absurd h List.not_mem_nil, fun _ h => absurd h List.not_mem_nil⟩
  | cons r rs ih =>
    change (match (manifest w r).runFrom c with
        | (.ok m, c) => (do return m :: (← serve w rs)).runFrom c
        | (.error _, c) => (serve w rs).runFrom c) = _ at h
    have hfuture := future_manifest (w := w) hc r
    generalize hm : (manifest w r).runFrom c = done at h hfuture
    obtain ⟨outcome, u⟩ := done
    obtain ⟨hgrows, hu⟩ := hfuture
    cases outcome with
    | error e =>
      obtain ⟨hgrows', hd, hkept, hall⟩ := ih hu h
      refine ⟨hgrows.trans hgrows', hd, hkept, fun x hx hkey => ?_⟩
      rcases List.mem_cons.1 hx with rfl | hx
      · exact absurd hkey (manifest_eq_error hm).2
      · exact hall x hx (hgrows.classes.mem_keys hkey)
    | ok m =>
      obtain ⟨rest, v, hrest, h⟩ := Act.bind_eq_ok.1 h
      cases h
      obtain ⟨hgrows', hd, hkept, hall⟩ := ih hu hrest
      have hm' := hgrows'.manifests _ _ (get?_of_manifest hm)
      refine ⟨hgrows.trans hgrows', hd, fun x hx => ?_, fun x hx hkey => ?_⟩
      · rcases List.mem_cons.1 hx with rfl | hx
        · have hfiled : x.ref.path = r.path := hd.filed _ (Entries.mem_of_get? hm')
          rw [hfiled, hm']
        · exact hkept x hx
      · rcases List.mem_cons.1 hx with rfl | hx
        · exact ⟨m, List.mem_cons_self, hm'⟩
        · obtain ⟨m', hmem, hget⟩ := hall x hx (hgrows.classes.mem_keys hkey)
          exact ⟨m', List.mem_cons_of_mem _ hmem, hget⟩

end Roster

end Amalgam
