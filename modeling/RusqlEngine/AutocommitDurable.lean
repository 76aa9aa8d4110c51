import RusqlEngine.CrashRecovery

/-!
# Runs of statements outside a transaction

The actions of a statement take their ids before they write and write a table before they flush
it, so that every version gets an id that the file of its table does not know. With the end of the
statement and the checkpoints, every run whose file writes are settled can be stopped after any
statement.
-/

namespace RusqlEngine

open CountedReplay

namespace Server

variable {s : Server}

section

variable {step : WriteStep}

theorem Fresh.rowStep (h : s.Logged) (hrow : rowStep step) {name : String} {id : Nat}
    (hfresh : s.Fresh name id) : (s.runStep step).Fresh name id := by
  cases step with
  | takeId => exact hfresh
  | insert table row newId =>
    rw [Server.runStep]
    cases hdata : s.tables table with
    | none => exact hfresh
    | some data =>
      refine hfresh.logRows (fun op hop => ?_) fun file _ i hi => ?_
      · rw [List.mem_singleton.mp hop]
      · have hops : [(⟨.insertVersion, table, row.tag newId, ""⟩ : RedoOp)].filterMap
            (opFor table) = [.insert (row.tag newId)] := by simp [opFor]
        rw [hops]
        exact hi.append_insert
  | rewrite table pos row newId =>
    rw [Server.runStep]
    cases hdata : s.tables table with
    | none => exact hfresh
    | some data =>
      dsimp only
      cases hold : data.rows[pos]? with
      | none => exact hfresh
      | some old =>
        dsimp only
        split
        · rename_i hvisible
          refine hfresh.logRows (fun op hop => ?_) fun file hfile i hi => ?_
          · rcases List.mem_pair.mp hop with rfl | rfl <;> rfl
          · have hpos := h.outcome_pos hdata hfile (List.mem_of_getElem? hold) hvisible
            have hops := @opFor_rewriteOps table old row newId
            rw [rewriteOps] at hops
            rw [hops]
            exact Unfiled.rewrite hi hpos
        · exact hfresh
  | erase table chosen =>
    rw [Server.runStep]
    cases hdata : s.tables table with
    | none => exact hfresh
    | some data =>
      refine hfresh.logRows (fun op hop => ?_) fun file hfile i hi => ?_
      · obtain ⟨row, -, rfl⟩ := List.mem_map.mp hop
        rfl
      · have hops := @opFor_eraseOps table (goneRows data.rows chosen)
        rw [eraseOps] at hops
        rw [hops]
        refine hi.append_kills ?_
        rw [h.alive_eq table file data hfile hdata, alive_keptRows data.rows chosen i]
        exact Nat.le_add_left ..
  | log table row id | flush table | vacuum table | saveSchema table schema counters
  | alter table schema counters change | create table schema counters | drop table
  | truncate table | rename table target schema => cases hrow

theorem nextId_rowStep (hrow : rowStep step) : s.nextId ≤ (s.runStep step).nextId := by
  cases step with
  | takeId => exact Nat.le_succ _
  | insert table row id | erase table chosen =>
    rw [Server.runStep]
    split <;> exact Nat.le_refl _
  | rewrite table pos row id =>
    rw [Server.runStep]
    split
    · exact Nat.le_refl _
    · split
      · exact Nat.le_refl _
      · split <;> exact Nat.le_refl _
  | log table row id | flush table | vacuum table | saveSchema table schema counters
  | alter table schema counters change | create table schema counters | drop table
  | truncate table | rename table target schema => cases hrow

theorem settled_of_rowStep (hrow : rowStep step) : s.Settled step := by
  cases step <;> first | exact trivial | exact nomatch hrow

theorem Legal.rowStep (h : s.Logged) {step' : WriteStep} (hrow : rowStep step)
    (hlegal : s.Legal step') : (s.runStep step).Legal step' := by
  cases step' with
  | insert table row id | rewrite table pos row id =>
    exact ⟨hlegal.1, hlegal.2.1.trans_le (nextId_rowStep hrow), Fresh.rowStep h hrow hlegal.2.2⟩
  | _ => trivial

/-- Steps that change rows only, each with an id that is fresh at the start. -/
structure RowWrites (s : Server) (steps : List WriteStep) : Prop where
  row : ∀ step ∈ steps, rowStep step = true
  legal : ∀ step ∈ steps, s.Legal step

theorem Logged.rowWrites : ∀ {steps : List WriteStep} {s : Server}, s.Logged → s.RowWrites steps →
    (steps.foldl Server.runStep s).Logged ∧ s.nextId ≤ (steps.foldl Server.runStep s).nextId ∧
      ∀ name id, s.Fresh name id → (steps.foldl Server.runStep s).Fresh name id
  | [], s, h, _ => ⟨h, Nat.le_refl _, fun _ _ hfresh => hfresh⟩
  | step :: steps, s, h, hw => by
      have hrow := hw.row step List.mem_cons_self
      have hstep := h.runStep (hw.legal step List.mem_cons_self) (settled_of_rowStep hrow)
      have hrest : (s.runStep step).RowWrites steps :=
        ⟨fun later hl => hw.row later (.tail _ hl),
          fun later hl => (hw.legal later (.tail _ hl)).rowStep h hrow⟩
      obtain ⟨hlogged, hid, hfresh⟩ := Logged.rowWrites hstep hrest
      exact ⟨hlogged, (nextId_rowStep hrow).trans hid,
        fun name id hf => hfresh name id (Fresh.rowStep h hrow hf)⟩

end

theorem settledAll_append : ∀ {steps steps' : List WriteStep} {s : Server},
    SettledAll s (steps ++ steps') ↔ SettledAll s steps ∧ SettledAll (steps.foldl runStep s) steps'
  | [], steps', s => by simp [SettledAll]
  | step :: steps, steps', s => by
      rw [List.cons_append, SettledAll, SettledAll, settledAll_append, and_assoc]
      rfl

variable {table : String}

theorem Fresh.flush {name : String} {id : Nat} (hfresh : s.Fresh name id) (hne : name ≠ table) :
    (s.runStep (.flush table)).Fresh name id := by
  rw [Server.runStep]
  cases hdata : s.tables table with
  | none => exact hfresh
  | some data =>
    intro file hfile
    dsimp only at hfile
    rw [putRows_of_ne _ hne] at hfile
    exact hfresh file hfile

theorem nextId_flush (table : String) : (s.runStep (.flush table)).nextId = s.nextId := by
  rw [Server.runStep]
  split <;> rfl

section

open StmtAction

theorem rowWrites_rewriteSteps {id : Nat} (hpos : 0 < id) (hid : id < s.nextId)
    (hfresh : s.Fresh table id) (writes : List (Nat × Row)) :
    s.RowWrites (rewriteSteps table id writes) where
  row step hstep := by
    obtain ⟨w, -, rfl⟩ := List.mem_map.mp hstep
    rfl
  legal step hstep := by
    obtain ⟨w, -, rfl⟩ := List.mem_map.mp hstep
    exact ⟨hpos, hid, hfresh⟩

theorem Logged.takeIds {s : Server} (h : s.Logged) (ids : List (Option Row)) :
    ((ids.map fun _ => WriteStep.takeId).foldl Server.runStep s).Logged ∧
      ((ids.map fun _ => WriteStep.takeId).foldl Server.runStep s).nextId = s.nextId + ids.length ∧
      ∀ name id, s.Fresh name id →
        ((ids.map fun _ => WriteStep.takeId).foldl Server.runStep s).Fresh name id := by
  induction ids generalizing s with
  | nil => exact ⟨h, rfl, fun _ _ hf => hf⟩
  | cons first ids ih =>
    obtain ⟨hlogged, hnext, hfresh⟩ := ih h.takeId
    refine ⟨hlogged, ?_, fun name id hf => hfresh name id hf⟩
    rw [List.map_cons, List.foldl_cons, hnext, List.length_cons, Server.runStep]
    dsimp only
    omega

theorem Logged.insertSteps (h : s.Logged) (table : String) (rows : List (Option Row)) :
    ((StmtAction.insertSteps table s.nextId rows).foldl Server.runStep s).Logged := by
  obtain ⟨hlogged, hnext, hfresh⟩ := h.takeIds rows
  rw [StmtAction.insertSteps, List.foldl_append]
  refine (hlogged.rowWrites ⟨fun step hstep => ?_, fun step hstep => ?_⟩).1
  · obtain ⟨p, -, hp⟩ := List.mem_filterMap.mp hstep
    obtain ⟨row, -, rfl⟩ := Option.map_eq_some_iff.mp hp
    rfl
  · obtain ⟨p, hmem, hp⟩ := List.mem_filterMap.mp hstep
    obtain ⟨row, -, rfl⟩ := Option.map_eq_some_iff.mp hp
    have hlt : p.2 < rows.length := List.snd_lt_of_mem_zipIdx hmem
    refine ⟨Nat.add_pos_left h.pos _, ?_, hfresh _ _ (h.fresh (Nat.le_add_right ..) table)⟩
    rw [hnext]
    omega

/-- Where no row is logged alone, the write phase that throws has taken ids only. -/
theorem Logged.insertThrowsSteps (h : s.Logged) {rows : List (Option Row)} {logged : Nat}
    (hsettled : SettledAll s (rows.map (fun _ => .takeId) ++
      (rowSteps (.log table) s.nextId rows).take logged)) :
    ((rows.map (fun _ => WriteStep.takeId) ++
      (rowSteps (.log table) s.nextId rows).take logged).foldl
      Server.runStep s).Logged := by
  have hnone : (rowSteps (.log table) s.nextId rows).take logged = [] := by
    have hlogs := (settledAll_append.mp hsettled).2
    have hmem : ∀ step ∈ (rowSteps (.log table) s.nextId rows).take logged,
        ∃ row id, step = .log table row id := by
      intro step hstep
      obtain ⟨p, -, hp⟩ := List.mem_filterMap.mp (List.mem_of_mem_take hstep)
      obtain ⟨row, -, rfl⟩ := Option.map_eq_some_iff.mp hp
      exact ⟨row, _, rfl⟩
    cases hsteps : (rowSteps (.log table) s.nextId rows).take logged with
    | nil => rfl
    | cons step steps =>
      obtain ⟨row, id, rfl⟩ := hmem step (hsteps ▸ List.mem_cons_self)
      rw [hsteps] at hlogs
      exact hlogs.1.elim
  rw [hnone, List.append_nil]
  exact (h.takeIds rows).1

variable {covered : Bool}

/-- The rewrites of the foreign-key actions, table by table, each table flushed after its own. -/
theorem Logged.cascadeSteps {id : Nat} (hpos : 0 < id) :
    ∀ {cascade : List (String × List (Nat × Row))} {s : Server}, s.Logged → id < s.nextId →
    (cascade.map (·.1)).Nodup → (∀ name ∈ cascade.map (·.1), s.Fresh name id) →
    SettledAll s (cascade.flatMap fun c => rewriteSteps c.1 id c.2 ++
      if covered = false ∧ c.2 ≠ [] then [.flush c.1] else []) →
    ((cascade.flatMap fun c => rewriteSteps c.1 id c.2 ++
      if covered = false ∧ c.2 ≠ [] then [.flush c.1] else []).foldl Server.runStep s).Logged
  | [], s, h, _, _, _, _ => h
  | c :: cascade, s, h, hid, hnodup, hfresh, hsettled => by
      rw [List.map_cons, List.nodup_cons] at hnodup
      rw [List.flatMap_cons, settledAll_append, settledAll_append] at hsettled
      obtain ⟨⟨-, hflush⟩, hrest⟩ := hsettled
      obtain ⟨hlogged, hnext, hkept⟩ := h.rowWrites
        (rowWrites_rewriteSteps hpos hid (hfresh c.1 List.mem_cons_self) c.2)
      rw [List.flatMap_cons, List.foldl_append, List.foldl_append]
      rw [List.foldl_append] at hrest
      have hothers : ∀ name ∈ cascade.map (·.1), s.Fresh name id := fun name hname =>
        hfresh name (.tail _ hname)
      by_cases hflushed : covered = false ∧ c.2 ≠ []
      · rw [if_pos hflushed] at hflush hrest ⊢
        rw [List.foldl_cons, List.foldl_nil] at hrest ⊢
        refine Logged.cascadeSteps hpos (hlogged.flush hflush.1) ?_ hnodup.2
          (fun name hname => ?_) hrest
        · rw [nextId_flush]
          exact hid.trans_le hnext
        · exact (hkept name id (hothers name hname)).flush fun he => hnodup.1 (he ▸ hname)
      · rw [if_neg hflushed] at hrest ⊢
        rw [List.foldl_nil] at hrest ⊢
        exact Logged.cascadeSteps hpos hlogged (hid.trans_le hnext) hnodup.2
          (fun name hname => hkept name id (hothers name hname)) hrest

theorem Logged.flushes : ∀ {plan : List PlannedTable} {s : Server}, s.Logged →
    SettledAll s (plan.map fun c => .flush c.name) →
    ((plan.map fun c => WriteStep.flush c.name).foldl Server.runStep s).Logged
  | [], _, h, _ => h
  | c :: plan, s, h, hsettled => by
      rw [List.map_cons, List.foldl_cons]
      exact Logged.flushes (h.flush hsettled.1) hsettled.2

theorem Logged.updateSteps (h : s.Logged) {own : List (Nat × Row)}
    {cascade : Option (List (String × List (Nat × Row)))}
    (hnodup : ∀ c, cascade = some c → (c.map (·.1)).Nodup)
    (hsettled : SettledAll s (StmtAction.updateSteps covered table s.nextId own cascade)) :
    ((StmtAction.updateSteps covered table s.nextId own cascade).foldl Server.runStep
      s).Logged := by
  have hid : s.nextId < (s.runStep .takeId).nextId := Nat.lt_succ_self _
  have hfresh : ∀ name, (s.runStep .takeId).Fresh name s.nextId := fun name =>
    h.fresh (Nat.le_refl _) name
  rw [StmtAction.updateSteps.eq_def] at hsettled ⊢
  rw [List.foldl_cons, List.foldl_append]
  obtain ⟨hlogged, hnext, hkept⟩ := h.takeId.rowWrites
    (rowWrites_rewriteSteps h.pos hid (hfresh table) own)
  have hrest := (settledAll_append.mp hsettled.2).2
  cases cascade with
  | none => exact hlogged
  | some cascade =>
    dsimp only at hrest ⊢
    rw [settledAll_append] at hrest
    rw [List.foldl_append]
    have hcascade := hlogged.cascadeSteps h.pos (hid.trans_le hnext) (hnodup cascade rfl)
      (fun name _ => hkept name _ (hfresh name)) hrest.1
    cases covered with
    | true => exact hcascade
    | false => exact hcascade.flush hrest.2.1

theorem Logged.deleteSteps (h : s.Logged) {plan : List PlannedTable} {own : Nat → Bool}
    (hsettled : SettledAll s (StmtAction.deleteSteps covered table s.nextId plan own)) :
    ((StmtAction.deleteSteps covered table s.nextId plan own).foldl Server.runStep s).Logged := by
  have hid : s.nextId < (s.runStep .takeId).nextId := Nat.lt_succ_self _
  have hfresh : ∀ name, (s.runStep .takeId).Fresh name s.nextId := fun name =>
    h.fresh (Nat.le_refl _) name
  rw [StmtAction.deleteSteps] at hsettled ⊢
  have hall := hsettled.2
  rw [settledAll_append, settledAll_append] at hall
  obtain ⟨⟨-, hflushes⟩, -⟩ := hall
  rw [List.foldl_cons, List.foldl_append, List.foldl_append]
  have hwrites : (s.runStep .takeId).RowWrites (plan.flatMap (fun c =>
      rewriteSteps c.name s.nextId c.rewrites) ++
    plan.map fun c => .erase c.name fun pos => decide (pos ∈ c.deleted)) := by
    refine ⟨fun step hstep => ?_, fun step hstep => ?_⟩
    · rcases List.mem_append.mp hstep with hstep | hstep
      · obtain ⟨c, -, hc⟩ := List.mem_flatMap.mp hstep
        obtain ⟨w, -, rfl⟩ := List.mem_map.mp hc
        rfl
      · obtain ⟨c, -, rfl⟩ := List.mem_map.mp hstep
        rfl
    · rcases List.mem_append.mp hstep with hstep | hstep
      · obtain ⟨c, -, hc⟩ := List.mem_flatMap.mp hstep
        obtain ⟨w, -, rfl⟩ := List.mem_map.mp hc
        exact ⟨h.pos, hid, hfresh c.name⟩
      · obtain ⟨c, -, rfl⟩ := List.mem_map.mp hstep
        exact trivial
  have hrows := (h.takeId.rowWrites hwrites).1
  cases covered with
  | true => exact hrows.erase table own
  | false =>
    rw [if_neg (by decide)] at hflushes ⊢
    exact (hrows.flushes hflushes).erase table own

theorem Logged.runAction (h : s.Logged) {action : StmtAction}
    (hsettled : SettledAll s (action.steps covered s.nextId)) :
    (s.runAction covered action).Logged := by
  rw [Server.runAction]
  cases action with
  | insert table rows => exact h.insertSteps table rows
  | insertThrows table rows logged => exact h.insertThrowsSteps hsettled
  | update table own cascade =>
    refine h.updateSteps (fun c hc => ?_) hsettled
    obtain ⟨planned, -, rfl⟩ := Option.map_eq_some_iff.mp hc
    exact planned.2
  | delete table plan own => exact h.deleteSteps hsettled
  | vacuum table =>
    refine h.runStep ?_ hsettled.1
    exact trivial
  | saveCounters table schema counters => exact h.saveSchema table schema counters
  | ddl step hddl =>
    refine h.runStep ?_ hsettled.1
    cases step <;> first | exact trivial | exact nomatch hddl

theorem Logged.runActions : ∀ {actions : List StmtAction} {s : Server}, s.Logged →
    SettledActions covered s actions → (actions.foldl (Server.runAction covered) s).Logged
  | [], _, h, _ => h
  | action :: actions, s, h, hsettled => by
      rw [List.foldl_cons]
      exact Logged.runActions (h.runAction hsettled.1) hsettled.2

end

theorem opsOf_eq_nil {name : String} {log : List RedoOp}
    (h : ∀ op ∈ log, op.kind ≠ .tableFlushed → op.table ≠ name) : opsOf name log = [] := by
  rw [opsOf, List.filterMap_eq_nil_iff]
  intro op hop
  rw [opFor]
  split
  · rename_i htable
    cases hkind : op.kind with
    | tableFlushed => rfl
    | insertVersion | setXmax => exact (h op (mem_keptOps hop) (by simp [hkind]) htable).elim
  · rfl

theorem Logged.checkpointRedo (h : s.Logged) (hops : s.redoOps = []) : s.checkpointRedo.Logged := by
  have hreplayed : ∀ name, s.checkpointRedo.replayed name = [] := by
    intro name
    rw [replayed, pending]
    have hlog : s.checkpointRedo.redoLog = [] := rfl
    have hnone : s.checkpointRedo.redoOps = [] := hops
    rw [hlog, hnone]
    rfl
  -- a file is the one from before, or has the rows of the memory
  have hfiles : ∀ name file, s.checkpointRedo.files name = some file →
      ∃ before, s.files name = some before ∧ file.schema = before.schema ∧
        file.autoIncrementCounters = before.autoIncrementCounters ∧
        ((name ∉ s.redoDirty ∧ file.rows = before.rows) ∨
          (s.tables name = none ∧ file.rows = before.rows) ∨
          ∃ data, s.tables name = some data ∧ file.rows = data.rows) := by
    intro name file hfile
    simp only [Server.checkpointRedo] at hfile
    split at hfile
    · cases hdata : s.tables name with
      | none =>
        rw [hdata] at hfile
        exact ⟨file, hfile, rfl, rfl, .inr (.inl ⟨rfl, rfl⟩)⟩
      | some data =>
        rw [hdata] at hfile
        dsimp only at hfile
        rw [putRows_self] at hfile
        obtain ⟨before, hbefore, rfl⟩ := Option.map_eq_some_iff.mp hfile
        exact ⟨before, hbefore, rfl, rfl, .inr (.inr ⟨data, rfl, rfl⟩)⟩
    · rename_i hclean
      exact ⟨file, hfile, rfl, rfl, .inl ⟨hclean, rfl⟩⟩
  refine
    { pos := h.pos, header_eq := fun name => ?_, alive_eq := fun name file data hfile hdata i => ?_
      filed := fun name file hfile row hrow => ?_, held := h.held
      logOlder := fun op hop => (List.not_mem_nil hop).elim
      opsOlder := h.opsOlder
      filled := fun op hop => (List.not_mem_nil hop).elim
      unmarked := h.unmarked
      dirty := fun op hop => (List.not_mem_nil hop).elim }
  · refine Eq.trans ?_ (h.header_eq name)
    simp only [Server.checkpointRedo]
    split
    · cases hdata : s.tables name with
      | none => rfl
      | some data =>
        dsimp only
        rw [putRows_self, Option.map_map]
        rfl
    · rfl
  · rw [hreplayed, outcome_nil]
    obtain ⟨before, hbefore, -, -, ⟨hclean, hrows⟩ | ⟨hnone, -⟩ | ⟨data', hdata', hrows⟩⟩ :=
      hfiles name file hfile
    · have hnil : s.replayed name = [] := by
        rw [replayed, pending, hops, List.filterMap_nil, List.append_nil]
        exact opsOf_eq_nil fun op hop hkind htable => hclean (htable ▸ h.dirty op hop hkind)
      have := h.alive_eq name before data hbefore hdata i
      rw [hnil, outcome_nil] at this
      rw [hrows]
      exact this
    · cases hnone.symm.trans hdata
    · rw [hrows, Option.some.inj (hdata'.symm.trans hdata)]
  · obtain ⟨before, hbefore, -, -, ⟨-, hrows⟩ | ⟨-, hrows⟩ | ⟨data', hdata', hrows⟩⟩ :=
      hfiles name file hfile
    · exact h.filed name before hbefore row (hrows ▸ hrow)
    · exact h.filed name before hbefore row (hrows ▸ hrow)
    · exact h.held name data' hdata' row (hrows ▸ hrow)

theorem fillXmax_kind (x : String) (op : RedoOp) : (fillXmax x op).kind = op.kind := by
  rw [fillXmax]
  split <;> rfl

theorem fillXmax_data (x : String) (op : RedoOp) : (fillXmax x op).data = op.data := by
  rw [fillXmax]
  split <;> rfl

theorem fillXmax_xmax (x : String) (op : RedoOp) :
    (fillXmax x op).xmax = x ∨ (fillXmax x op).xmax = op.xmax := by
  rw [fillXmax]
  split
  · exact .inl rfl
  · exact .inr rfl

theorem olderOp_fillXmax {n : Nat} (hn : 0 < n) {op : RedoOp} (h : OlderOp n op) :
    OlderOp (n + 1) (fillXmax (stdToString n) op) where
  xmin k hk := by
    rw [fillXmax_data]
    exact h.xmin k (Nat.le_of_succ_le hk)
  xmax k hk := by
    rcases fillXmax_xmax (stdToString n) op with hx | hx
    · rw [hx]
      intro he
      have := stdToString_injective he
      omega
    · rw [hx]
      exact h.xmax k (Nat.le_of_succ_le hk)
  adds hkind := by
    rw [fillXmax_data]
    exact h.adds (fillXmax_kind _ op ▸ hkind)
  ends hkind := by
    rw [fillXmax_kind] at hkind
    rcases fillXmax_xmax (stdToString n) op with hx | hx
    · rw [hx]
      exact stdToString_ne_zero hn (Nat.le_refl n)
    · rw [hx]
      exact h.ends hkind

theorem Logged.opsOf_batch (h : s.Logged) (name : String) :
    opsOf name s.writeRedoBatch.redoLog =
      (s.replayed name).map (Op.fill "" (stdToString s.nextId)) := by
  have hlog : (opsOf name s.redoLog).map (Op.fill "" (stdToString s.nextId)) =
      opsOf name s.redoLog := by
    refine List.map_congr_left (g := id) (fun op hop => ?_) |>.trans (List.map_id _)
    obtain ⟨logged, hmem, hfor⟩ := List.mem_filterMap.mp hop
    cases op with
    | insert row => rfl
    | kill row x =>
      obtain ⟨hkind, -, rfl⟩ := opFor_eq_kill hfor
      rw [Op.fill, if_neg (h.filled logged (mem_keptOps hmem) hkind), id]
  have hunmarked : ∀ op ∈ s.redoOps.map (fillXmax (stdToString s.nextId)),
      op.kind ≠ .tableFlushed := by
    intro op hop
    obtain ⟨before, hbefore, rfl⟩ := List.mem_map.mp hop
    rw [fillXmax_kind]
    exact h.unmarked before hbefore
  have hpending : (s.redoOps.map (fillXmax (stdToString s.nextId))).filterMap (opFor name) =
      (s.pending name).map (Op.fill "" (stdToString s.nextId)) := by
    rw [pending, List.filterMap_map, List.map_filterMap]
    congr 1
    funext op
    exact opFor_fillXmax _ name op
  rw [writeRedoBatch, opsOf_append hunmarked, hpending, replayed, List.map_append, hlog]

theorem Logged.writeRedoBatch (h : s.Logged) : s.writeRedoBatch.Logged where
  pos := Nat.succ_pos _
  header_eq := h.header_eq
  alive_eq name file data hfile hdata i := by
    have hreplayed : s.writeRedoBatch.replayed name =
        (s.replayed name).map (Op.fill "" (stdToString s.nextId)) := by
      rw [replayed, h.opsOf_batch]
      exact List.append_nil _
    have hblank : ended rowVersions i "" file.rows = 0 :=
      ended_eq_zero (fun row hrow => (h.filed name file hfile row hrow).stamped) i
    have hnew : ended rowVersions i (stdToString s.nextId) file.rows = 0 :=
      ended_eq_zero (fun row hrow => (h.filed name file hfile row hrow).xmax _ (Nat.le_refl _)) i
    rw [hreplayed, outcome_fill hblank hnew]
    · exact h.alive_eq name file data hfile hdata i
    · intro row x hkill
      obtain ⟨op, hmem, hfor⟩ := exists_of_mem_replayed hkill
      obtain ⟨-, -, rfl⟩ := opFor_eq_kill hfor
      exact (h.older hmem).xmax _ (Nat.le_refl _)
  filed name file hfile row hrow := (h.filed name file hfile row hrow).mono (Nat.le_succ _)
  held name data hdata row hrow := (h.held name data hdata row hrow).mono (Nat.le_succ _)
  logOlder op hop := by
    rcases List.mem_append.mp hop with hop | hop
    · exact (h.logOlder op hop).mono (Nat.le_succ _)
    · obtain ⟨before, hbefore, rfl⟩ := List.mem_map.mp hop
      exact olderOp_fillXmax h.pos (h.opsOlder before hbefore)
  opsOlder op hop := nomatch hop
  filled op hop hkind := by
    rcases List.mem_append.mp hop with hop | hop
    · exact h.filled op hop hkind
    · obtain ⟨before, hbefore, rfl⟩ := List.mem_map.mp hop
      rw [fillXmax_kind] at hkind
      by_cases hx : before.xmax = ""
      · rw [RusqlEngine.fillXmax, if_pos ⟨hkind, hx⟩]
        exact stdToString_ne_empty _
      · rw [RusqlEngine.fillXmax, if_neg fun hboth => hx hboth.2]
        exact hx
  unmarked op hop := nomatch hop
  dirty op hop hkind := by
    rw [Server.writeRedoBatch]
    dsimp only
    rcases List.mem_append.mp hop with hop | hop
    · split
      · exact h.dirty op hop hkind
      · exact List.mem_append_right _ (h.dirty op hop hkind)
    · rw [if_neg (List.ne_nil_of_mem hop)]
      exact List.mem_append_left _ (List.mem_map_of_mem hop)

/-- Between two statements. -/
structure AtRest (s : Server) : Prop where
  logged : s.Logged
  redoOps_eq : s.redoOps = []

theorem AtRest.checkpointRedo (h : s.AtRest) : s.checkpointRedo.AtRest :=
  ⟨h.logged.checkpointRedo h.redoOps_eq, h.redoOps_eq⟩

theorem AtRest.prepare (h : s.AtRest) (r : Routines) (e : Executed) : (s.prepare r e).AtRest := by
  rw [Server.prepare]
  generalize hgrown : (if e.checkpoint then s.checkpointRedo else s) = grown
  have hrest : grown.AtRest := by
    rw [← hgrown]
    split
    · exact h.checkpointRedo
    · exact h
  split
  · exact hrest.checkpointRedo
  · exact hrest

theorem Loaded.atRest (h : s.Loaded) : s.AtRest where
  logged :=
    { pos := h.nextId_pos
      header_eq := fun name => by rw [h.files_eq]
      alive_eq := fun name file data hfile hdata i => by
        have hreplayed : s.replayed name = [] := by
          rw [replayed, pending, h.redoLog_eq, h.redoOps_eq]
          rfl
        rw [h.files_eq, hdata] at hfile
        rw [hreplayed, outcome_nil, Option.some.inj hfile]
      filed := fun name file hfile => h.older name file (h.files_eq ▸ hfile)
      held := h.older
      logOlder := fun op hop => by
        rw [h.redoLog_eq] at hop
        cases hop
      opsOlder := fun op hop => by
        rw [h.redoOps_eq] at hop
        cases hop
      filled := fun op hop => by
        rw [h.redoLog_eq] at hop
        cases hop
      unmarked := fun op hop => by
        rw [h.redoOps_eq] at hop
        cases hop
      dirty := fun op hop => by
        rw [h.redoLog_eq] at hop
        cases hop }
  redoOps_eq := h.redoOps_eq

end Server

namespace Routines

variable {r : Routines}

theorem changesAny_of_mem {f : String → Bool} {stmt : RoutineStmt} (h : changes f stmt) :
    ∀ {body : List RoutineStmt}, stmt ∈ body → changesAny f body = true
  | first :: body, hmem => by
      rw [changesAny, Bool.or_eq_true]
      rcases List.mem_cons.mp hmem with rfl | hmem
      · exact .inl h
      · exact .inr (changesAny_of_mem h hmem)

theorem MayDo.changes {stmt : RoutineStmt} {action : StmtAction} (h : r.MayDo stmt action) :
    ∀ depth, Routines.changes (r.callChanges depth) stmt := by
  induction h with
  | write | trigger | vacuum | ddl =>
    intro depth
    rfl
  | block hstmt _ ih =>
    intro depth
    rw [Routines.changes]
    exact changesAny_of_mem (ih depth) hstmt
  | call hbody hstmt _ ih =>
    intro depth
    rw [Routines.changes]
    cases depth with
    | zero => rfl
    | succ depth =>
      simp only [callChanges, hbody]
      exact changesAny_of_mem (ih depth) hstmt

end Routines

namespace Server

variable {s : Server} {r : Routines}

theorem AtRest.execute (h : s.AtRest) {e : Executed} (hpermitted : e.Permitted r)
    (hsettled : SettledActions (coveredStmt r e) (s.prepare r e) e.actions)
    (hend : e.thrown → (s.runActions r e).redoOps = []) : (s.execute r e).AtRest := by
  have hprepared := h.prepare r e
  have hlogged : (s.runActions r e).Logged := hprepared.logged.runActions hsettled
  rw [Server.execute]
  cases hthrown : e.thrown with
  | true => exact ⟨hlogged, hend hthrown⟩
  | false =>
    by_cases hchange : r.mayChangeStoredData e.stmt = true
    · rw [hchange]
      exact ⟨hlogged.writeRedoBatch, rfl⟩
    · have hnone : e.actions = [] := by
        rw [List.eq_nil_iff_forall_not_mem]
        intro action haction
        exact hchange ((hpermitted action haction).changes 8)
      rw [Bool.eq_false_iff.mpr hchange, Server.runActions, hnone]
      exact hprepared

theorem AtRest.run : ∀ {run : List Executed} {s : Server}, s.AtRest →
    (∀ e ∈ run, e.Permitted r) → SettledRun r s run → (run.foldl (Server.execute r) s).AtRest
  | [], _, h, _, _ => h
  | e :: run, s, h, hpermitted, hsettled => by
      rw [List.foldl_cons]
      exact AtRest.run (h.execute (hpermitted e List.mem_cons_self) hsettled.1 hsettled.2.1)
        (fun later hl => hpermitted later (.tail _ hl)) hsettled.2.2

/-- `box(id PRIMARY KEY)` with the row 1. -/
def boxServer : Server where
  tables := fun name =>
    if name = "box" then
      some ⟨⟨[⟨"id", true, false⟩], [], []⟩, [], [(Row.ofCells [("id", "1")]).tag 3]⟩
    else none
  files := fun name =>
    if name = "box" then
      some ⟨⟨[⟨"id", true, false⟩], [], []⟩, [], [(Row.ofCells [("id", "1")]).tag 3]⟩
    else none
  redoLog := []
  redoDirty := []
  redoOps := []
  nextId := 5

/-- `CREATE PROCEDURE refill() BEGIN INSERT INTO box VALUES (2); TRUNCATE TABLE box; END`. -/
def boxRoutines : Routines where
  procedures := fun name => if name = "refill" then some [.write ["box"], .ddl] else none
  triggers := []
  base := some

def insertTwo : StmtAction :=
  .insert "box" [some (Row.ofCells [("id", "2")])]

def truncateBox : StmtAction :=
  .ddl (.truncate "box") rfl

theorem boxServer_loaded : boxServer.Loaded where
  files_eq := rfl
  redoLog_eq := rfl
  redoOps_eq := rfl
  nextId_pos := by decide
  older name data hdata row hrow := by
    simp only [boxServer] at hdata
    split at hdata
    · rw [← Option.some.inj hdata] at hrow
      rw [List.mem_singleton.mp hrow]
      exact OlderRow.tag (by decide) (by decide) _
    · exact nomatch hdata

/-- An INSERT that throws at its first row, before anything is logged. -/
def insertThrowing : StmtAction :=
  .insertThrows "box" [some (Row.ofCells [("id", "3")])] 0

end Server

end RusqlEngine
