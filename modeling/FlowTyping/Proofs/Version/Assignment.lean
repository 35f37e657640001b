/-
Versions form a closed and minimal single assignment.

`introduced` lists the versions of a name, each as often as something introduces it.
`SingleAssignment` says that nothing is listed twice, that reads and merges mention only what is
listed, and that each merge that is left has at least two sources.  For the last part: every round
of folding but the last folds a merge, so there are no more of them than merges and one, and after
the last one no merge can be folded (`stable_found`).
-/
import FlowTyping.Proofs.Version.Distinct

namespace FlowTyping

open List Relation

/-! ### Rounds come to an end -/

namespace Merge

variable {folds : Folds} {merges : List Merge} {m : Merge}

theorem foldOne_cases (folds : Folds) (m : Merge) : foldOne folds m = folds ∨
      folds.get? m.version = none ∧ ∃ d, foldOne folds m = folds.insert m.version d := by
  rw [foldOne]
  split
  · exact .inl rfl
  · next hopen =>
    have hnone : folds.get? m.version = none := by simpa [Table.contains] using hopen
    split
    · exact .inr ⟨hnone, _, rfl⟩
    · exact .inr ⟨hnone, _, rfl⟩
    · exact .inl rfl

/-- A round never makes the table smaller, and one that leaves its size alone finds nothing to
fold. -/
theorem size_le_foldl (folds : Folds) (ms : List Merge) :
    folds.size ≤ (ms.foldl foldOne folds).size ∧
      ((ms.foldl foldOne folds).size = folds.size → ∀ m ∈ ms, foldOne folds m = folds) := by
  induction ms generalizing folds with
  | nil => simp
  | cons m ms ih =>
    rw [foldl_cons]
    obtain hsame | ⟨hnone, d, hinsert⟩ := foldOne_cases folds m
    · rw [hsame]
      refine ⟨(ih folds).1, fun hsize m' hm' => ?_⟩
      rcases mem_cons.1 hm' with rfl | hm'
      · exact hsame
      · exact (ih folds).2 hsize m' hm'
    · have hle := (ih (foldOne folds m)).1
      rw [hinsert, Table.size_insert_of_new d hnone] at hle
      rw [hinsert]
      constructor
      · omega
      · intro hsize
        omega

/-- A table of folds is no larger than a list with all its keys. -/
theorem Layered.size_le (h : Layered folds) {vs : List Nat}
    (hvs : ∀ v, folds.get? v ≠ none → v ∈ vs) : folds.size ≤ vs.length := by
  induction h generalizing vs with
  | empty => exact Nat.zero_le _
  | @insert folds v d h hv hd hne ih =>
    have hmem : v ∈ vs := hvs v (by simp)
    have hle : folds.size ≤ (vs.erase v).length := by
      refine ih fun u hu => ?_
      have huv : u ≠ v := by
        rintro rfl
        exact hu hv
      refine (mem_erase_of_ne huv).2 (hvs u ?_)
      rwa [Table.get?_insert, if_neg huv.symm]
    rw [Table.size_insert_of_new d hv]
    rw [length_erase_of_mem hmem] at hle
    have := length_pos_of_mem hmem
    omega

theorem Sound.size_le (h : Sound merges folds) : folds.size ≤ merges.length := by
  rw [← length_map (f := Merge.version)]
  refine h.layered.size_le fun v hv => ?_
  obtain ⟨d, hd⟩ := Option.ne_none_iff_exists'.1 hv
  obtain ⟨m, hm, rfl⟩ := h.merge v d hd
  exact mem_map_of_mem hm

theorem Sound.stable_foldRounds (h : Sound merges folds) (hdistinct : Distinct merges)
    (hground : Grounded merges) {fuel : Nat} (hfuel : merges.length < fuel + folds.size) :
    ∀ m ∈ merges, Merge.foldOne (Merge.foldRounds merges fuel folds) m = Merge.foldRounds merges fuel folds := by
  induction fuel generalizing folds with
  | zero =>
    have := h.size_le
    omega
  | succ fuel ih =>
    rw [Merge.foldRounds]
    split
    · next hsize => exact (size_le_foldl folds merges).2 hsize
    · next hsize =>
      have hle := (size_le_foldl folds merges).1
      exact ih (h.foldl_foldOne hdistinct hground merges fun _ hm => hm) (by omega)

/-- After the last round no merge can be folded. -/
theorem stable_found (hdistinct : Distinct merges) (hground : Grounded merges) :
    ∀ m ∈ merges, foldOne (found merges) m = found merges :=
  (sound_empty merges).stable_foldRounds hdistinct hground (Nat.lt_succ_self merges.length)

theorem sound_found (hdistinct : Distinct merges) (hground : Grounded merges) : Sound merges (found merges) :=
  (sound_empty merges).foldRounds hdistinct hground (merges.length + 1)

/-! ### Merges that are left -/

theorem nodup_distinct (own : Nat) (ds : List Definition) : (distinct own ds).Nodup := by
  suffices h : ∀ seen : List Definition, seen.Nodup →
      (ds.foldl (fun seen d => if d = .version own ∨ d ∈ seen then seen else seen ++ [d]) seen).Nodup from
    h [] nodup_nil
  induction ds with
  | nil => exact fun _ h => h
  | cons d ds ih =>
    intro seen hseen
    rw [foldl_cons]
    split
    · exact ih seen hseen
    · next hnew =>
      push Not at hnew
      refine ih _ (hseen.append (nodup_singleton d) ?_)
      rintro _ hmem hd
      cases mem_singleton.1 hd
      exact hnew.2 hmem

/-- What cannot be folded has two sources that stand for different definitions. -/
theorem two_le_of_foldOne_eq (h : foldOne folds m = folds) (hopen : folds.get? m.version = none) :
    2 ≤ (distinct m.version (m.sources.map (lookup folds))).length := by
  have hinsert : ∀ d, folds.insert m.version d ≠ folds := by
    intro d heq
    have hget := Table.get?_insert_self folds m.version d
    rw [heq, hopen] at hget
    cases hget
  rw [foldOne, Table.contains, hopen] at h
  rcases hds : distinct m.version (m.sources.map (lookup folds)) with - | ⟨d, - | ⟨d', ds⟩⟩
  · rw [hds] at h
    exact absurd h (hinsert _)
  · rw [hds] at h
    exact absurd h (hinsert _)
  · simp

theorem Layered.lookup_eq_iff (h : Layered folds) (v : Nat) :
    lookup folds (.version v) = .version v ↔ folds.get? v = none := by
  refine ⟨fun hown => ?_, lookup_version⟩
  have hvalue := h.value?_lookup (.version v)
  rwa [hown] at hvalue

theorem minimal_of_mem_kept (hdistinct : Distinct merges) (hground : Grounded merges)
    (hm : m ∈ kept (Merge.folds merges) merges) :
    2 ≤ m.sources.length ∧ m.sources.Nodup ∧ .version m.version ∉ m.sources := by
  have hlayered := (sound_found hdistinct hground).layered
  obtain ⟨m₀, hm₀, hown, rfl⟩ := mem_kept.1 hm
  rw [resolved_folds hlayered, hlayered.lookup_eq_iff] at hown
  refine ⟨?_, nodup_distinct _ _, fun hmem => (mem_distinct.1 hmem).2 rfl⟩
  have htwo := two_le_of_foldOne_eq (stable_found hdistinct hground m₀ hm₀) hown
  rwa [← funext (resolved_folds hlayered)] at htwo

end Merge

namespace Versions

variable {d : Definition} {flow : Flow} {id : NameId} {m : Merge} {n : Nat} {params : List String} {x : String}

/-! ### What is to be shown -/

/-- The versions of a name, each as often as something introduces it: a parameter on entry, a write
of the name among some events, or a merge that is left. -/
def introduced (v : Versions) (params : List String) (events : List Event) (x : String) : List Nat :=
  (if x ∈ params then [initial] else []) ++
    ((v.writes.filter fun p => .write p.1 x ∈ events).map Prod.snd ++ (Merge.named x v.merges).map (·.version))

/-- Versions are closed, single-assignment and minimal for some events. -/
structure SingleAssignment (v : Versions) (params : List String) (events : List Event) : Prop where
  /-- No version of a local is introduced twice. -/
  once : ∀ x ∈ v.locals, (v.introduced params events x).Nodup
  /-- A recorded read is one of a local, and sees no version that is not introduced for it. -/
  seen : ∀ id d, (id, d) ∈ v.reads → ∃ x ∈ v.locals, .read id x ∈ events ∧
    ∀ n, d = .version n → n ∈ v.introduced params events x
  /-- A merge is one of a local, and mentions no version that is not introduced for it. -/
  merged : ∀ m ∈ v.merges, m.name ∈ v.locals ∧
    ∀ n, .version n ∈ m.sources → n ∈ v.introduced params events m.name
  /-- A recorded write is one of a local. -/
  written : ∀ id n, (id, n) ∈ v.writes → ∃ x ∈ v.locals, .write id x ∈ events
  allReads : ∀ x ∈ v.locals, ∀ id, .read id x ∈ events → ∃ d, v.read? id = some d
  allWrites : ∀ x ∈ v.locals, ∀ id, .write id x ∈ events → ∃ n, v.written? id = some n
  /-- Each merge that is left merges different definitions, none of which is the merge itself. -/
  minimal : ∀ m ∈ v.merges, 2 ≤ m.sources.length ∧ m.sources.Nodup ∧ .version m.version ∉ m.sources

/-! ### Where definitions come from -/

/-- A definition of a name comes from the entry, from a write or from a merge, folded or not. -/
def Known (flow : Flow) (params : List String) (x : String) (d : Definition) : Prop :=
  d = onEntry params x ∨ (∃ id n, .write id x ∈ reachableEvents flow ∧ (id, n) ∈ (walked flow params).1.writes ∧
    d = .version n) ∨ ∃ m ∈ Merge.named x (filled flow params), d = .version m.version

theorem VersionAfter.known {b : BlockId} (hb : b ∈ flow.reachable) {before after : List Event}
    (hevents : Event.ofItems (flow.items b) = before ++ after)
    (h : VersionAfter flow params b before x n) : Known flow params x (.version n) := by
  rcases h with ⟨id, hlast, hmem, -⟩ | ⟨-, hget⟩
  · obtain ⟨bs, as, rfl, -⟩ := Event.lastWrite_eq_some_iff.1 hlast
    refine .inr (.inl ⟨id, n, mem_reachableEvents.2 ⟨b, hb, ?_⟩, hmem, rfl⟩)
    rw [hevents]
    simp
  · obtain ⟨m, hm, -, rfl⟩ := exists_mem_filled hget
    exact .inr (.inr ⟨m, hm, rfl⟩)

theorem exists_read_of_mem (hx : x ∈ localsOf flow params) (hid : .read id x ∈ reachableEvents flow) :
    ∃ v, (id, x, v) ∈ (walked flow params).1.reads ∧ Known flow params x (.version v) := by
  obtain ⟨b, hb, hid⟩ := mem_reachableEvents.1 hid
  obtain ⟨before, after, hevents⟩ := append_of_mem hid
  obtain ⟨v, hread, hafter⟩ := exists_read hb hevents hx
  exact ⟨v, hread, hafter.known hb hevents⟩

theorem mem_merges_ofFlow (hm : m ∈ (ofFlow flow params).merges) : m.name ∈ localsOf flow params ∧
      m ∈ Merge.kept (Merge.folds (Merge.named m.name (filled flow params)))
        (Merge.named m.name (filled flow params)) := by
  have hlocal : m.name ∈ localsOf flow params := by
    rw [merges_ofFlow] at hm
    obtain ⟨m₀, hm₀, rfl⟩ := mem_map.1 hm
    obtain ⟨m₁, hm₁, rfl⟩ := mem_filled.1 (mem_filter.1 hm₀).1
    exact (mem_mattering.1 (mem_issued hm₁).2).1
  refine ⟨hlocal, ?_⟩
  rw [← Merge.named_simplified hlocal, ← merges_ofFlow]
  exact Merge.mem_named.2 ⟨hm, rfl⟩

theorem nodup_merges (flow : Flow) (hx : x ∈ localsOf flow params) :
    ((Merge.named x (ofFlow flow params).merges).map (·.version)).Nodup := by
  have hpairs : (filled flow params).Pairwise fun m m' => m.name = m'.name → m.version ≠ m'.version := by
    rw [filled, pairwise_map]
    exact (issued_spec flow params).distinct
  have hnamed : ((Merge.named x (filled flow params)).map (·.version)).Nodup := by
    rw [List.Nodup, pairwise_map]
    refine (hpairs.filter _).imp_of_mem fun hm hm' hne => hne ?_
    exact (Merge.mem_named.1 hm).2.trans (Merge.mem_named.1 hm').2.symm
  rw [merges_ofFlow, Merge.named_simplified hx, Merge.kept, List.map_map]
  exact (filter_sublist.map _).nodup hnamed

section

variable (h : DistinctOccurrences flow)
include h

theorem Known.arrow {s : Definition} (harrow : Merge.Arrow (Merge.named x (filled flow params)) d s) :
    Known flow params x s := by
  obtain ⟨m, hm, -, hs⟩ := harrow
  obtain ⟨hfilled, rfl⟩ := Merge.mem_named.1 hm
  obtain ⟨m₀, hm₀, rfl⟩ := mem_filled.1 hfilled
  rcases (mem_sources h hm₀).1 hs with ⟨-, rfl⟩ | ⟨p, v, hp, -, hafter, rfl⟩
  · exact .inl rfl
  · exact hafter.known hp (append_nil _).symm

theorem sound_filled (params : List String) (x : String) :
    Merge.Sound (Merge.named x (filled flow params)) (Merge.found (Merge.named x (filled flow params))) :=
  Merge.sound_found (distinct_filled flow params x) (grounded_filled h params x)

/-- Resolving a definition gives one that is introduced. -/
theorem mem_introduced_of_resolve (hx : x ∈ localsOf flow params) (hd : Known flow params x d)
    (hn : Merge.resolve (Merge.substitution (localsOf flow params) (filled flow params)) x d = .version n) :
    n ∈ (ofFlow flow params).introduced params (reachableEvents flow) x := by
  have hsound := sound_filled h params x
  rw [Merge.resolve_substitution hx, Merge.resolved_folds hsound.layered] at hn
  have hknown : Known flow params x (.version n) := by
    rw [← hn]
    rcases ReflTransGen.cases_tail (hsound.leads d) with heq | ⟨s, -, harrow⟩
    · rwa [heq]
    · exact Known.arrow h harrow
  rw [introduced, mem_append, mem_append]
  rcases hknown with hentry | ⟨id, n', hwrite, hmem, heq⟩ | ⟨m, hm, heq⟩
  · rw [onEntry] at hentry
    split at hentry
    · next hparam =>
      cases hentry
      simp [hparam]
    · cases hentry
  · cases heq
    exact .inr (.inl (mem_map.2 ⟨(id, n), mem_filter.2 ⟨hmem, decide_eq_true hwrite⟩, rfl⟩))
  · cases heq
    have hown : Merge.resolved (Merge.folds (Merge.named x (filled flow params)))
        (.version m.version) = .version m.version := by
      rw [Merge.resolved_folds hsound.layered, ← hn, hsound.layered.lookup_lookup]
    rw [merges_ofFlow, Merge.named_simplified hx]
    exact .inr (.inr (mem_map.2 ⟨_, Merge.mem_kept.2 ⟨m, hm, hown, rfl⟩, rfl⟩))

/-- The versions of writes are above those of merges. -/
theorem given_lt_of_mem_writes (hx : x ∈ localsOf flow params) (hid : .write id x ∈ reachableEvents flow)
    (hn : (id, n) ∈ (walked flow params).1.writes) : given (issued flow params).2 x < n := by
  obtain ⟨log, hlog⟩ := exists_logged flow params
  obtain ⟨v, hv⟩ := hlog.complete id x hid hx
  have hmem : (id, v) ∈ (walked flow params).1.writes :=
    hlog.writes ▸ mem_map_of_mem (f := fun p : NameId × String × Nat => (p.1, p.2.2)) hv
  rw [eq_of_mem_writes h hn hmem]
  exact hlog.above id x v hv

theorem nodup_introduced (hx : x ∈ localsOf flow params) :
    ((ofFlow flow params).introduced params (reachableEvents flow) x).Nodup := by
  have hwrite : ∀ p ∈ (ofFlow flow params).writes.filter fun p => .write p.1 x ∈ reachableEvents flow,
      .write p.1 x ∈ reachableEvents flow ∧ p ∈ (walked flow params).1.writes := by
    intro p hp
    obtain ⟨hp, hid⟩ := mem_filter.1 hp
    exact ⟨of_decide_eq_true hid, hp⟩
  have hmerge : ∀ m ∈ Merge.named x (ofFlow flow params).merges,
      initial < m.version ∧ m.version ≤ given (issued flow params).2 x := by
    intro m hm
    rw [merges_ofFlow, Merge.named_simplified hx] at hm
    obtain ⟨m₀, hm₀, -, rfl⟩ := Merge.mem_kept.1 hm
    obtain ⟨hfilled, rfl⟩ := Merge.mem_named.1 hm₀
    obtain ⟨m₁, hm₁, rfl⟩ := mem_filled.1 hfilled
    exact ⟨(issued_spec flow params).above m₁ hm₁, (issued_spec flow params).below m₁ hm₁⟩
  refine nodup_append'.2 ⟨by split <;> simp, nodup_append'.2 ⟨?_, nodup_merges flow hx, ?_⟩, ?_⟩
  · have hnodup : (walked flow params).1.writes.Nodup := (nodup_walked h params).2.of_map
    refine (hnodup.filter _).map_on fun p hp p' hp' heq => ?_
    obtain ⟨hid, hmem⟩ := hwrite p hp
    obtain ⟨hid', hmem'⟩ := hwrite p' hp'
    refine Prod.ext ((writesApart h hx).injective p.1 p'.1 (mem_reachableEvents.1 hid)
      (mem_reachableEvents.1 hid') ?_) heq
    rw [written?_ofFlow, written?_ofFlow, (lookup_eq_some_iff_mem (nodup_walked h params).2).2 hmem,
      (lookup_eq_some_iff_mem (nodup_walked h params).2).2 hmem', heq]
  · intro n hn hn'
    obtain ⟨p, hp, rfl⟩ := mem_map.1 hn
    obtain ⟨m, hm, heq⟩ := mem_map.1 hn'
    have hlt := given_lt_of_mem_writes h hx (hwrite p hp).1 (hwrite p hp).2
    exact absurd (heq ▸ (hmerge m hm).2) (Nat.not_le_of_lt hlt)
  · intro n hn hn'
    obtain rfl : n = initial := by
      split at hn
      · exact mem_singleton.1 hn
      · cases hn
    rcases mem_append.1 hn' with hn' | hn'
    · obtain ⟨p, hp, heq⟩ := mem_map.1 hn'
      have hlt := given_lt_of_mem_writes h hx (hwrite p hp).1 (hwrite p hp).2
      exact absurd (heq ▸ hlt) (Nat.not_lt_zero _)
    · obtain ⟨m, hm, heq⟩ := mem_map.1 hn'
      exact absurd (heq ▸ (hmerge m hm).1) (Nat.lt_irrefl _)

theorem seen_ofFlow (hid : (id, d) ∈ (ofFlow flow params).reads) : ∃ x ∈ localsOf flow params,
    .read id x ∈ reachableEvents flow ∧
      ∀ n, d = .version n → n ∈ (ofFlow flow params).introduced params (reachableEvents flow) x := by
  obtain ⟨log, hlog⟩ := exists_logged flow params
  rw [reads_ofFlow] at hid
  obtain ⟨⟨id', x, v⟩, hmem, heq⟩ := mem_map.1 hid
  cases heq
  obtain ⟨hx, hevent⟩ := hlog.reads id x v hmem
  refine ⟨x, hx, hevent, fun n hn => mem_introduced_of_resolve h hx ?_ hn⟩
  obtain ⟨v', hmem', hknown⟩ := exists_read_of_mem hx hevent
  have hkeys := (nodup_walked h params).1
  rw [← lookup_eq_some_iff_mem hkeys] at hmem hmem'
  cases hmem.symm.trans hmem'
  exact hknown

theorem merged_ofFlow (hm : m ∈ (ofFlow flow params).merges) (hn : .version n ∈ m.sources) :
    n ∈ (ofFlow flow params).introduced params (reachableEvents flow) m.name := by
  obtain ⟨hx, hkept⟩ := mem_merges_ofFlow hm
  obtain ⟨m₀, hm₀, -, heq⟩ := Merge.mem_kept.1 hkept
  rw [heq] at hn
  obtain ⟨s, hs, hsn⟩ := mem_map.1 (Merge.mem_distinct.1 hn).1
  refine mem_introduced_of_resolve h hx (Known.arrow h ⟨m₀, hm₀, rfl, hs⟩) ?_
  rw [Merge.resolve_substitution hx, hsn]

/-- Versions of a flow graph with distinct occurrences. -/
theorem singleAssignment (params : List String) :
    SingleAssignment (ofFlow flow params) params (reachableEvents flow) where
  once _ := nodup_introduced h
  seen _ _ := seen_ofFlow h
  merged m hm := ⟨(mem_merges_ofFlow hm).1, fun _ => merged_ofFlow h hm⟩
  written id n hid := by
    obtain ⟨log, hlog⟩ := exists_logged flow params
    replace hid : (id, n) ∈ (walked flow params).1.writes := hid
    rw [hlog.writes] at hid
    obtain ⟨⟨id', x, v⟩, hmem, heq⟩ := mem_map.1 hid
    cases heq
    exact ⟨x, hlog.sound id x n hmem⟩
  allReads x hx id hid := by
    obtain ⟨v, hmem, -⟩ := exists_read_of_mem hx hid
    exact ⟨_, (lookup_eq_some_iff_mem (nodup_reads h params)).2 (mem_map.2 ⟨(id, x, v), hmem, rfl⟩)⟩
  allWrites x hx id hid := by
    obtain ⟨n, hn, -⟩ := (writesApart h hx).exists_version id (mem_reachableEvents.1 hid)
    exact ⟨n, hn⟩
  minimal m hm :=
    Merge.minimal_of_mem_kept (distinct_filled flow params _) (grounded_filled h params _) (mem_merges_ofFlow hm).2

end

/-- **Versions are closed, single-assignment and minimal**, for every body whose occurrences of
names are distinct and every list of parameters. -/
theorem singleAssignment_ofBody (body : Body) (params : List String) (h : (Occurrence.ofStmts body.stmts).Nodup) :
    SingleAssignment (ofFlow (.ofBody body) params) params (reachableEvents (.ofBody body)) :=
  singleAssignment (distinct_ofBody h) params

/-- `while x: x = 2` and then `return x`, in a function. -/
def waiting : Body :=
  ⟨["f"], .function, ["x"], [.whileLoop 1 (.name 1 ⟨0⟩ "x") [.assign 2 [.name 2 ⟨1⟩ "x"] (.constant 2 .int)] [],
    .ret 3 (some (.name 3 ⟨2⟩ "x"))]⟩

/-- The loop keeps one merge, of the parameter and the write; the merge after the loop is folded
into it. -/
theorem singleAssignment_ofBody_waiting :
    (Occurrence.ofStmts waiting.stmts).Nodup ∧ (ofFlow (.ofBody waiting) ["x"]).merges.length = 1 ∧
      SingleAssignment (ofFlow (.ofBody waiting) ["x"]) ["x"] (reachableEvents (.ofBody waiting)) := by
  have hnodup : (Occurrence.ofStmts waiting.stmts).Nodup := by decide
  exact ⟨hnodup, by decide +kernel, singleAssignment_ofBody waiting ["x"] hnodup⟩

end Versions

end FlowTyping
