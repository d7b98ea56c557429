import UnixCShell.Lib.Replay
import UnixCShell.Xv6.Log.Space

/-!
# What is on the disk

At any time the disk is such that a recovery would lead to the state behind the last commit
(`DiskOk.recovered`): until `write_head` the header is empty and the blocks in their places are the
old ones; from then on the blocks in the log are the new ones, whatever has been installed; and when
the header is cleared they have all been installed.

Since no operation is in progress during a commit, the writes that are durable are those of whole
operations (`DiskOk.whole`).
-/

namespace UnixCShell.Xv6.Log

open Lib

variable (start : Nat)

/-! ## Recovery -/

/-- The block is not in the log. -/
def IsHome (b : Nat) : Prop := b < start ∨ start + logBlocks < b

/-- A block that the file system may log. -/
def Loggable (b : Nat) : Prop := IsHome start b ∧ b < 2 ^ 32

/-- The blocks that a header names, with what the log has for them. -/
def entries (d : Disk) (lh : List Nat) : List (Nat × Block) :=
  lh.mapIdx fun i b => (b, d (start + i + 1))

/-- The disk with the blocks of the log in their places, as `install_trans` puts them there. -/
def recovered (d : Disk) : Disk := replay d (entries start d (readHead (d start)))

/-- The contents of the blocks after the writes. -/
def contents (base : Disk) (ws : List Write) : Disk :=
  replay base (ws.map fun w => (w.block, w.data))

/-- The header of the log names blocks of the file system, and not too many. -/
def HeadOk (d : Disk) : Prop :=
  (readHead (d start)).length ≤ logBlocks ∧ ∀ b ∈ readHead (d start), Loggable start b

variable {start}

theorem not_isHome_header : ¬ IsHome start start := by
  unfold IsHome
  omega

theorem not_isHome_log {i : Nat} (h : i < logBlocks) : ¬ IsHome start (start + i + 1) := by
  unfold IsHome
  omega

theorem map_fst_entries (d : Disk) (lh : List Nat) : (entries start d lh).map Prod.fst = lh := by
  simp [entries, List.mapIdx_eq_zipIdx_map, Function.comp_def]

theorem mem_entries {d : Disk} {lh : List Nat} {e : Nat × Block} :
    e ∈ entries start d lh ↔ ∃ i, lh[i]? = some e.1 ∧ d (start + i + 1) = e.2 := by
  rw [entries, List.mem_mapIdx]
  constructor
  · rintro ⟨i, hi, rfl⟩
    exact ⟨i, List.getElem?_eq_getElem hi, rfl⟩
  · rintro ⟨i, hi, hd⟩
    obtain ⟨hlt, hb⟩ := List.getElem?_eq_some_iff.mp hi
    exact ⟨i, hlt, by rw [hb, hd]⟩

theorem contents_concat (base : Disk) (ws : List Write) (w : Write) :
    contents base (ws ++ [w]) = Function.update (contents base ws) w.block w.data := by
  rw [contents, List.map_append, List.map_singleton, replay_concat, contents]

/-- Blocks that are not written stay. -/
theorem contents_take {base : Disk} {ws : List Write} {n b : Nat}
    (h : ∀ w ∈ ws.drop n, w.block ≠ b) :
    contents base (ws.take n) b = contents base ws b := by
  conv_rhs => rw [← List.take_append_drop n ws, contents, List.map_append, replay_append]
  refine (replay_of_notMem fun hmem => ?_).symm
  rw [List.map_map] at hmem
  obtain ⟨w, hw, rfl⟩ := List.mem_map.mp hmem
  exact h w hw rfl

/-- With an empty header there is nothing to recover. -/
theorem recovered_of_nil {d : Disk} (h : readHead (d start) = []) : recovered start d = d := by
  rw [recovered, h]
  rfl

/-- The log has what the cache has for the blocks of the header, and the other blocks are in their
places. -/
theorem recovered_eq {d cache : Disk} (hlog : ∀ i b, (readHead (d start))[i]? = some b →
    d (start + i + 1) = cache b)
    {b : Nat} (hplace : b ∉ readHead (d start) → d b = cache b) :
    recovered start d b = cache b := by
  refine replay_eq_of_forall (fun e he heq => ?_) fun hnot => ?_
  · obtain ⟨i, hi, hd⟩ := mem_entries.mp he
    rw [← hd, ← heq]
    exact hlog i e.1 hi
  · rw [map_fst_entries] at hnot
    exact hplace hnot

/-- Installing a block of the header changes nothing for a recovery. -/
theorem recovered_install {d : Disk} (h : HeadOk start d) {i b : Nat}
    (hb : (readHead (d start))[i]? = some b) :
    recovered start (Function.update d b (d (start + i + 1))) = recovered start d := by
  have hmem := List.mem_of_getElem? hb
  have hne {c : Nat} (hc : ¬ IsHome start c) : Function.update d b (d (start + i + 1)) c = d c := by
    refine Function.update_of_ne ?_ _ _
    rintro rfl
    exact hc (h.2 c hmem).1
  have hentries : entries start (Function.update d b (d (start + i + 1))) (readHead (d start)) =
      entries start d (readHead (d start)) := by
    refine List.ext_getElem (by simp [entries]) fun j hj _ => ?_
    rw [entries, List.length_mapIdx] at hj
    simp only [entries, List.getElem_mapIdx, hne (not_isHome_log (Nat.lt_of_lt_of_le hj h.1))]
  funext c
  rw [recovered, hne not_isHome_header, hentries, recovered]
  refine replay_congr fun hnot => Function.update_of_ne ?_ _ _
  rintro rfl
  exact hnot (by rwa [map_fst_entries])

/-! ## The invariant -/

/-- The operation `op` has begun, and nothing of it is durable. -/
def Fresh (s : Log) (op : Nat) : Prop := op < s.ops ∧ ∀ w ∈ s.writes.take s.durable, w.op ≠ op

/-- A block that the process has changed, but not logged yet. -/
def Pc.target : Pc → Option Nat
  | .dirty _ _ b | .logWrite _ _ b => some b
  | _ => none

/-- Does the process install blocks? -/
def Pc.installs : Pc → Bool
  | .install _ | .clear => true
  | _ => false

variable (start) in
/-- What is known about the disk where a process is. -/
def Pc.Sound (s : Log) : Pc → Prop
  | .begun op | .inOp op _ | .logged op _ => Fresh s op
  | .dirty op _ b | .logWrite op _ b => Fresh s op ∧ Loggable start b
  | .writeLog i => ∀ j b, j < i → s.lh[j]? = some b → s.disk (start + j + 1) = s.cache b
  | .install i => s.durable = s.writes.length ∧ readHead (s.disk start) = s.lh ∧
      (∀ j b, s.lh[j]? = some b → s.disk (start + j + 1) = s.cache b) ∧
      ∀ b, IsHome start b → b ∉ s.lh.drop i → s.disk b = s.cache b
  | .clear => s.durable = s.writes.length ∧ HeadOk start s.disk ∧
      ∀ b, IsHome start b → s.disk b = s.cache b ∧ recovered start s.disk b = s.cache b
  | .done | .committed => s.durable = s.writes.length
  | .sync mark => mark ≤ s.writes.length
  | .syncWait n mark => mark ≤ s.writes.length ∧ (n ≤ s.ncommit → mark ≤ s.durable)
  | .synced mark | .idle mark => mark ≤ s.durable
  | _ => True

variable (start) in
structure DiskOk (base : Disk) (s : Log) (ks : Fin nproc → Pc) : Prop where
  blocks  : ∀ b ∈ s.lh, Loggable start b
  cache   : ∀ b, IsHome start b → s.cache b = contents base s.writes b
  le      : s.durable ≤ s.writes.length
  /-- What is not durable is in the log, or will be. -/
  pending : ∀ w ∈ s.writes.drop s.durable, w.block ∈ s.lh ∨ ∃ t, (ks t).target = some w.block
  ops     : ∀ w ∈ s.writes, w.op < s.ops
  /-- No operation is durable in part. -/
  whole   : ∀ w ∈ s.writes.take s.durable, ∀ w' ∈ s.writes.drop s.durable, w.op ≠ w'.op
  quiet   : (∀ t, (ks t).installs = false) → readHead (s.disk start) = [] ∧
    ∀ b, IsHome start b → s.disk b = contents base (s.writes.take s.durable) b
  sound   : ∀ t, (ks t).Sound start s

variable {base : Disk} {s s' : Log} {ks : Fin nproc → Pc} {t : Fin nproc} {k k' : Pc}

theorem Pc.target_eq_none (h : k.active = 0) : k.target = none := by
  cases k <;> first | rfl | cases h

theorem Pc.installs_eq_false (h : k.commits = 0) : k.installs = false := by
  cases k <;> first | rfl | cases h

/-- What a process knows that does not commit, while others go on. -/
theorem Pc.Sound.others (h : k.Sound start s) (hk : k.commits = 0)
    (hfresh : k.active = 1 → ∀ op, Fresh s op → Fresh s' op) (hdurable : s.durable ≤ s'.durable)
    (hlen : s.writes.length ≤ s'.writes.length) (hncommit : s'.ncommit = s.ncommit) :
    k.Sound start s' := by
  cases k with
  | endCommit | commit | writeLog | install | clear | done | committed => cases hk
  | begun op | inOp op | logged op => exact hfresh rfl op h
  | dirty op | logWrite op => exact ⟨hfresh rfl op h.1, h.2⟩
  | sync mark => exact Nat.le_trans h hlen
  | syncWait n mark =>
    refine ⟨Nat.le_trans h.1 hlen, ?_⟩
    rw [hncommit]
    exact fun hn => Nat.le_trans (h.2 hn) hdurable
  | synced mark | idle mark => exact Nat.le_trans h hdurable
  | begin | endOp | wake | leave | panic => trivial

/-- The blocks that are not durable, when no operation is in progress. -/
theorem DiskOk.pending_mem (h : DiskOk start base s ks) (hidle : ∀ t, (ks t).active = 0) {w : Write}
    (hw : w ∈ s.writes.drop s.durable) : w.block ∈ s.lh := by
  refine (h.pending w hw).resolve_right ?_
  rintro ⟨t, ht⟩
  rw [Pc.target_eq_none (hidle t)] at ht
  cases ht

/-- When the log is empty and no operation is in progress, everything is durable. -/
theorem DiskOk.durable_eq (h : DiskOk start base s ks) (hidle : ∀ t, (ks t).active = 0)
    (hlh : s.lh = []) :
    s.durable = s.writes.length := by
  refine Nat.le_antisymm h.le (Nat.not_lt.mp fun hlt => ?_)
  obtain ⟨w, hw⟩ := List.exists_mem_of_length_pos (l := s.writes.drop s.durable)
    (by rw [List.length_drop]; omega)
  have := h.pending_mem hidle hw
  rw [hlh] at this
  cases this

/-- Whatever happens, a recovery leads to what is durable. -/
theorem DiskOk.recovered_contents (h : DiskOk start base s ks) {b : Nat} (hb : IsHome start b) :
    recovered start s.disk b = contents base (s.writes.take s.durable) b := by
  by_cases hquiet : ∀ t, (ks t).installs = false
  · obtain ⟨hhead, hdisk⟩ := h.quiet hquiet
    rw [recovered_of_nil hhead, hdisk b hb]
  · obtain ⟨t, ht⟩ := not_forall.mp hquiet
    have hs := h.sound t
    have hall : s.durable = s.writes.length →
        contents base (s.writes.take s.durable) b = s.cache b := by
      intro hd
      rw [hd, List.take_length, h.cache b hb]
    cases hk : ks t with
    | install i =>
      rw [hk] at hs
      obtain ⟨hd, hhead, hlog, hplace⟩ := hs
      rw [hall hd]
      rw [← hhead] at hlog hplace
      exact recovered_eq hlog fun hnot => hplace b hb fun hmem => hnot (List.mem_of_mem_drop hmem)
    | clear =>
      rw [hk] at hs
      rw [hall hs.1]
      exact (hs.2.2 b hb).2
    | _ => simp [hk, Pc.installs] at ht

/-- A recovery will find a header that it can read. -/
theorem DiskOk.headOk (hok : Ok s ks) (h : DiskOk start base s ks) : HeadOk start s.disk := by
  by_cases hquiet : ∀ t, (ks t).installs = false
  · rw [HeadOk, (h.quiet hquiet).1]
    exact ⟨Nat.zero_le _, nofun⟩
  · obtain ⟨t, ht⟩ := not_forall.mp hquiet
    have hs := h.sound t
    cases hk : ks t with
    | install i =>
      rw [hk] at hs
      rw [HeadOk, hs.2.1]
      exact ⟨Nat.le_of_add_right_le hok.space, h.blocks⟩
    | clear =>
      rw [hk] at hs
      exact hs.2.1
    | _ => simp [hk, Pc.installs] at ht

/-! ## Steps -/

/-- There is only one process that commits. -/
theorem Ok.commits_others (h : Ok s ks) (hk : ks t = k) (hcommits : k.commits = 1)
    {u : Fin nproc} (hu : u ≠ t) :
    (ks u).commits = 0 := by
  have hle := add_le_total Pc.commits ks hu
  have hone : s.committing.toNat ≤ 1 := Bool.toNat_le _
  rw [← h.committing, hk, hcommits] at hle
  omega

/-- The process `t` moves from `k` to `k'`, and does not forget what it has changed. -/
theorem exists_target_update {b : Nat} (hk : ks t = k)
    (htarget : k.target = some b → k'.target = some b) (h : ∃ u, (ks u).target = some b) :
    ∃ u, (Function.update ks t k' u).target = some b := by
  obtain ⟨u, hu⟩ := h
  refine ⟨u, ?_⟩
  by_cases hut : u = t
  · subst hut
    rw [Function.update_self]
    exact htarget (hk ▸ hu)
  · rwa [Function.update_of_ne hut]

theorem installs_of_update (hk : ks t = k) (h : ∀ u, (Function.update ks t k' u).installs = false)
    (hinstalls : k'.installs = k.installs) : ∀ u, (ks u).installs = false := by
  intro u
  have := h u
  by_cases hut : u = t
  · subst hut
    rwa [Function.update_self, hinstalls, ← hk] at this
  · rwa [Function.update_of_ne hut] at this

theorem not_quiet (h : ∀ u, (Function.update ks t k' u).installs = false)
    (hk' : k'.installs = true) : False := by
  have := h t
  rw [Function.update_self, hk'] at this
  cases this

theorem sound_update (hself : k'.Sound start s') (hothers : ∀ u, u ≠ t → (ks u).Sound start s')
    (u : Fin nproc) :
    (Function.update ks t k' u).Sound start s' :=
  (Function.forall_update_iff ks fun _ k => k.Sound start s').mpr ⟨hself, hothers⟩ u

/-- A step that changes neither the blocks nor the record. -/
theorem DiskOk.stay (h : DiskOk start base s ks) (hk : ks t = k) (out : Nat) (com : Bool)
    (htarget : ∀ b, k.target = some b → k'.target = some b) (hinstalls : k'.installs = k.installs)
    (hself : k'.Sound start s) :
    DiskOk start base { s with outstanding := out, committing := com }
      (Function.update ks t k') where
  blocks := h.blocks
  cache := h.cache
  le := h.le
  pending w hw := (h.pending w hw).imp_right (exists_target_update hk (htarget _))
  ops := h.ops
  whole := h.whole
  quiet hquiet := h.quiet (installs_of_update hk hquiet hinstalls)
  sound := sound_update hself fun u _ => h.sound u

theorem DiskOk.begin (hok : Ok s ks) (h : DiskOk start base s ks) (hk : ks t = .begin)
    (hc : s.committing = false) :
    DiskOk start base { s with outstanding := s.outstanding + 1, ops := s.ops + 1 }
      (Function.update ks t (.begun s.ops)) where
  blocks := h.blocks
  cache := h.cache
  le := h.le
  pending w hw := (h.pending w hw).imp_right (exists_target_update hk nofun)
  ops w hw := Nat.lt_succ_of_lt (h.ops w hw)
  whole := h.whole
  quiet hquiet := h.quiet (installs_of_update hk hquiet rfl)
  sound := by
    refine sound_update ⟨Nat.lt_succ_self _, fun w hw => ?_⟩ fun u _ => ?_
    · exact Nat.ne_of_lt (h.ops w (List.mem_of_mem_take hw))
    · exact (h.sound u).others (hok.commits_eq_zero hc u)
        (fun _ _ hf => ⟨Nat.lt_succ_of_lt hf.1, hf.2⟩) le_rfl le_rfl rfl

theorem DiskOk.logWrite (hok : Ok s ks) (h : DiskOk start base s ks) {op b : Nat} {mine : List Nat}
    (hk : ks t = .logWrite op mine b) :
    DiskOk start base { s with lh := record s.lh b }
      (Function.update ks t (.logged op (record mine b))) where
  blocks := by
    intro c hc
    obtain hc | rfl := mem_record.mp hc
    · exact h.blocks c hc
    · exact (hk ▸ h.sound t : Pc.Sound start s (.logWrite op mine c)).2
  cache := h.cache
  le := h.le
  pending w hw := by
    by_cases hwb : w.block = b
    · exact .inl (mem_record.mpr (.inr hwb))
    · refine (h.pending w hw).imp (fun hmem => mem_record.mpr (.inl hmem))
        (exists_target_update hk fun htarget => ?_)
      exact absurd (Option.some.inj htarget).symm hwb
  ops := h.ops
  whole := h.whole
  quiet hquiet := h.quiet (installs_of_update hk hquiet rfl)
  sound := by
    have hpos := hok.active_pos hk rfl
    refine sound_update (hk ▸ h.sound t : Pc.Sound start s (.logWrite op mine b)).1 fun u _ => ?_
    exact (h.sound u).others (hok.commits_eq_zero (hok.not_committing hpos) u) (fun _ _ hf => hf)
      le_rfl le_rfl rfl

theorem DiskOk.committed (h : DiskOk start base s ks) (hk : ks t = .committed) :
    DiskOk start base { s with committing := false, ncommit := s.ncommit + 1 }
      (Function.update ks t .wake) where
  blocks := h.blocks
  cache := h.cache
  le := h.le
  pending w hw := (h.pending w hw).imp_right (exists_target_update hk nofun)
  ops := h.ops
  whole := h.whole
  quiet hquiet := h.quiet (installs_of_update hk hquiet rfl)
  sound := by
    have hdurable : s.durable = s.writes.length := (hk ▸ h.sound t : Pc.Sound start s .committed)
    refine sound_update trivial fun u _ => ?_
    have hu := h.sound u
    cases hku : ks u with
    | syncWait n mark =>
      rw [hku] at hu
      exact ⟨hu.1, fun _ => hdurable ▸ hu.1⟩
    | _ =>
      rw [hku] at hu
      exact hu

theorem DiskOk.write (hok : Ok s ks) (h : DiskOk start base s ks) {op b : Nat}
    {mine : List Nat} (data : Block) (hb : Loggable start b) (hk : ks t = .inOp op mine) :
    DiskOk start base
      { s with cache := Function.update s.cache b data, writes := s.writes ++ [⟨op, b, data⟩] }
      (Function.update ks t (.dirty op mine b)) := by
  have hfresh : Fresh s op := (hk ▸ h.sound t : Pc.Sound start s (.inOp op mine))
  have htake : (s.writes ++ [(⟨op, b, data⟩ : Write)]).take s.durable = s.writes.take s.durable :=
    List.take_append_of_le_length h.le
  have hdrop : (s.writes ++ [(⟨op, b, data⟩ : Write)]).drop s.durable =
    s.writes.drop s.durable ++ [⟨op, b, data⟩] :=
    List.drop_append_of_le_length h.le
  have hfresh' {op' : Nat} (hf : Fresh s op') :
      Fresh { s with
        cache := Function.update s.cache b data
        writes := s.writes ++ [⟨op, b, data⟩] } op' :=
    ⟨hf.1, fun w hw => hf.2 w (htake ▸ hw)⟩
  constructor
  case blocks => exact h.blocks
  case cache =>
    intro c hc
    show Function.update s.cache b data c = contents base (s.writes ++ [⟨op, b, data⟩]) c
    rw [contents_concat]
    by_cases hcb : c = b
    · subst hcb
      rw [Function.update_self, Function.update_self]
    · rw [Function.update_of_ne hcb, Function.update_of_ne hcb, h.cache c hc]
  case le =>
    show s.durable ≤ (s.writes ++ [(⟨op, b, data⟩ : Write)]).length
    rw [List.length_append]
    exact Nat.le_add_right_of_le h.le
  case pending =>
    intro w hw
    rw [hdrop] at hw
    obtain hw | hw := List.mem_append.mp hw
    · exact (h.pending w hw).imp_right (exists_target_update hk nofun)
    · obtain rfl := List.mem_singleton.mp hw
      exact .inr ⟨t, by rw [Function.update_self]; rfl⟩
  case ops =>
    intro w hw
    obtain hw | hw := List.mem_append.mp hw
    · exact h.ops w hw
    · obtain rfl := List.mem_singleton.mp hw
      exact hfresh.1
  case whole =>
    intro w hw w' hw'
    rw [htake] at hw
    rw [hdrop] at hw'
    obtain hw' | hw' := List.mem_append.mp hw'
    · exact h.whole w hw w' hw'
    · obtain rfl := List.mem_singleton.mp hw'
      exact hfresh.2 w hw
  case quiet =>
    intro hquiet
    rw [htake]
    exact h.quiet (installs_of_update hk hquiet rfl)
  case sound =>
    have hpos := hok.active_pos hk rfl
    refine sound_update ⟨hfresh' hfresh, hb⟩ fun u _ => ?_
    refine (h.sound u).others (hok.commits_eq_zero (hok.not_committing hpos) u)
      (fun _ _ hf => hfresh' hf) le_rfl ?_ rfl
    show s.writes.length ≤ (s.writes ++ [_]).length
    rw [List.length_append]
    exact Nat.le_add_right _ _

/-! ## Steps of a commit -/

/-- What the others know during a commit does not depend on the blocks. -/
theorem DiskOk.sound_commit (hok : Ok s ks) (h : DiskOk start base s ks) (hk : ks t = k)
    (hcommits : k.commits = 1) (hself : k'.Sound start s') (hdurable : s.durable ≤ s'.durable)
    (hlen : s.writes.length ≤ s'.writes.length) (hncommit : s'.ncommit = s.ncommit)
    (u : Fin nproc) : (Function.update ks t k' u).Sound start s' := by
  have hc := hok.committing_of hk hcommits
  refine sound_update hself
    (fun u hu => (h.sound u).others (hok.commits_others hk hcommits hu) (fun hactive => ?_)
    hdurable hlen hncommit) u
  rw [hok.active_eq_zero hc u] at hactive
  cases hactive

/-- The other processes install nothing. -/
theorem Ok.installs_others (hok : Ok s ks) (hk : ks t = k) (hcommits : k.commits = 1)
    (hinstalls : k.installs = false) (u : Fin nproc) : (ks u).installs = false := by
  by_cases hu : u = t
  · rw [hu, hk, hinstalls]
  · exact Pc.installs_eq_false (hok.commits_others hk hcommits hu)

theorem DiskOk.writeLog (hok : Ok s ks) (h : DiskOk start base s ks) {i b : Nat}
    (hk : ks t = .writeLog i) (hb : s.lh[i]? = some b) :
    DiskOk start base { s with disk := Function.update s.disk (start + i + 1) (s.cache b) }
      (Function.update ks t (.writeLog (i + 1))) := by
  have hi : i < logBlocks := by
    have := (List.getElem?_eq_some_iff.mp hb).1
    have := hok.space
    omega
  constructor
  case blocks => exact h.blocks
  case cache => exact h.cache
  case le => exact h.le
  case pending => exact fun w hw => (h.pending w hw).imp_right (exists_target_update hk nofun)
  case ops => exact h.ops
  case whole => exact h.whole
  case quiet =>
    intro hquiet
    obtain ⟨hhead, hdisk⟩ := h.quiet (installs_of_update hk hquiet rfl)
    refine ⟨?_, fun c hc => ?_⟩
    · show readHead (Function.update s.disk (start + i + 1) (s.cache b) start) = []
      rw [Function.update_of_ne (by omega), hhead]
    · show Function.update s.disk (start + i + 1) (s.cache b) c = _
      rw [Function.update_of_ne, hdisk c hc]
      rintro rfl
      exact not_isHome_log hi hc
  case sound =>
    refine h.sound_commit hok hk rfl (fun j c hj hc => ?_) le_rfl le_rfl rfl
    show Function.update s.disk (start + i + 1) (s.cache b) (start + j + 1) = s.cache c
    obtain hj | rfl := Nat.lt_succ_iff_lt_or_eq.mp hj
    · rw [Function.update_of_ne (by omega)]
      exact (hk ▸ h.sound t : Pc.Sound start s (.writeLog i)) j c hj hc
    · rw [Function.update_self]
      rw [hb] at hc
      rw [Option.some.inj hc]

/-- The commit point. -/
theorem DiskOk.writeHead (hok : Ok s ks) (h : DiskOk start base s ks) {i : Nat}
    (hk : ks t = .writeLog i) (hi : s.lh.length ≤ i) :
    DiskOk start base { s with
        disk := Function.update s.disk start (Xv6.writeHead (s.disk start) s.lh)
        durable := s.writes.length } (Function.update ks t (.install 0)) := by
  have hidle := hok.active_eq_zero (hok.committing_of hk rfl)
  have hlen : s.lh.length ≤ logBlocks := Nat.le_of_add_right_le hok.space
  have hdrop : s.writes.drop s.writes.length = [] := List.drop_length
  obtain ⟨-, hdisk⟩ := h.quiet (hok.installs_others hk rfl rfl)
  constructor
  case blocks => exact h.blocks
  case cache => exact h.cache
  case le => exact le_rfl
  case pending =>
    intro w hw
    rw [hdrop] at hw
    cases hw
  case ops => exact h.ops
  case whole =>
    intro w _ w' hw'
    rw [hdrop] at hw'
    cases hw'
  case quiet => exact fun hquiet => (not_quiet hquiet rfl).elim
  case sound =>
    refine h.sound_commit hok hk rfl
      ⟨rfl, ?_, fun j b hb => ?_, fun b hb hnot => ?_⟩ h.le le_rfl rfl
    · show readHead (Function.update s.disk start (Xv6.writeHead (s.disk start) s.lh) start) = s.lh
      rw [Function.update_self]
      exact readHead_writeHead _ hlen fun b hb => (h.blocks b hb).2
    · show Function.update s.disk start _ (start + j + 1) = s.cache b
      rw [Function.update_of_ne (by omega)]
      have hj : j < s.lh.length := (List.getElem?_eq_some_iff.mp hb).1
      exact (hk ▸ h.sound t : Pc.Sound start s (.writeLog i)) j b (by omega) hb
    · -- a block that is not in the log has not been changed since the last commit
      show Function.update s.disk start _ b = s.cache b
      rw [Function.update_of_ne, hdisk b hb, h.cache b hb, contents_take]
      · rintro w hw rfl
        exact hnot (h.pending_mem hidle hw)
      · rintro rfl
        exact not_isHome_header hb

theorem DiskOk.install (hok : Ok s ks) (h : DiskOk start base s ks) {i b : Nat}
    (hk : ks t = .install i) (hb : s.lh[i]? = some b) :
    DiskOk start base { s with
        cache := Function.update s.cache b (s.disk (start + i + 1))
        disk := Function.update s.disk b (s.disk (start + i + 1)) }
          (Function.update ks t (.install (i + 1))) := by
  obtain ⟨hdurable, hhead, hlog, hplace⟩ : Pc.Sound start s (.install i) := hk ▸ h.sound t
  have hhome : IsHome start b := (h.blocks b (List.mem_of_getElem? hb)).1
  have hlen : s.lh.length ≤ logBlocks := Nat.le_of_add_right_le hok.space
  -- the block in the log is the block in the cache
  rw [hlog i b hb, Function.update_eq_self]
  constructor
  case blocks => exact h.blocks
  case cache => exact h.cache
  case le => exact h.le
  case pending => exact fun w hw => (h.pending w hw).imp_right (exists_target_update hk nofun)
  case ops => exact h.ops
  case whole => exact h.whole
  case quiet => exact fun hquiet => (not_quiet hquiet rfl).elim
  case sound =>
    have hne {c : Nat} (hc : ¬ IsHome start c) :
        Function.update s.disk b (s.cache b) c = s.disk c := by
      refine Function.update_of_ne ?_ _ _
      rintro rfl
      exact hc hhome
    refine h.sound_commit hok hk rfl ⟨hdurable, ?_, fun j c hc => ?_, fun c hc hnot => ?_⟩
      le_rfl le_rfl rfl
    · show readHead (Function.update s.disk b (s.cache b) start) = s.lh
      rw [hne not_isHome_header, hhead]
    · show Function.update s.disk b (s.cache b) (start + j + 1) = s.cache c
      have hj := (List.getElem?_eq_some_iff.mp hc).1
      rw [hne (not_isHome_log (Nat.lt_of_lt_of_le hj hlen)), hlog j c hc]
    · show Function.update s.disk b (s.cache b) c = s.cache c
      by_cases hcb : c = b
      · rw [hcb, Function.update_self]
      · rw [Function.update_of_ne hcb]
        refine hplace c hc fun hmem => hnot ?_
        obtain ⟨hi, hib⟩ := List.getElem?_eq_some_iff.mp hb
        rw [List.drop_eq_getElem_cons hi, hib, List.mem_cons] at hmem
        exact hmem.resolve_left hcb

theorem DiskOk.installed (hok : Ok s ks) (h : DiskOk start base s ks) {i : Nat}
    (hk : ks t = .install i) (hi : s.lh.length ≤ i) :
    DiskOk start base { s with lh := [] } (Function.update ks t .clear) := by
  obtain ⟨hdurable, hhead, hlog, hplace⟩ : Pc.Sound start s (.install i) := hk ▸ h.sound t
  have hdrop : s.lh.drop i = [] := List.drop_eq_nil_of_le hi
  constructor
  case blocks => nofun
  case cache => exact h.cache
  case le => exact h.le
  case pending =>
    intro w hw
    have : s.writes.drop s.durable = [] := by rw [hdurable, List.drop_length]
    rw [this] at hw
    cases hw
  case ops => exact h.ops
  case whole => exact h.whole
  case quiet => exact fun hquiet => (not_quiet hquiet rfl).elim
  case sound =>
    have hheadOk : HeadOk start s.disk := by
      rw [HeadOk, hhead]
      exact ⟨Nat.le_of_add_right_le hok.space, h.blocks⟩
    refine h.sound_commit hok hk rfl ⟨hdurable, hheadOk, fun b hb => ?_⟩ le_rfl le_rfl rfl
    have hdisk : s.disk b = s.cache b := hplace b hb (by rw [hdrop]; exact List.not_mem_nil)
    rw [← hhead] at hlog
    exact ⟨hdisk, recovered_eq hlog fun _ => hdisk⟩

theorem DiskOk.clear (hok : Ok s ks) (h : DiskOk start base s ks) (hk : ks t = .clear) :
    DiskOk start base
      { s with disk := Function.update s.disk start (Xv6.writeHead (s.disk start) s.lh) }
      (Function.update ks t .done) := by
  obtain ⟨hdurable, -, hdisk⟩ : Pc.Sound start s .clear := hk ▸ h.sound t
  have hlh : s.lh = [] := hok.cleared_of hk
  constructor
  case blocks => exact h.blocks
  case cache => exact h.cache
  case le => exact h.le
  case pending => exact fun w hw => (h.pending w hw).imp_right (exists_target_update hk nofun)
  case ops => exact h.ops
  case whole => exact h.whole
  case quiet =>
    intro _
    refine ⟨?_, fun b hb => ?_⟩
    · show readHead (Function.update s.disk start (Xv6.writeHead (s.disk start) s.lh) start) = []
      rw [Function.update_self, hlh]
      exact readHead_writeHead _ (Nat.zero_le _) nofun
    · show Function.update s.disk start _ b = _
      rw [Function.update_of_ne, (hdisk b hb).1, hdurable, List.take_length, h.cache b hb]
      rintro rfl
      exact not_isHome_header hb
  case sound => exact h.sound_commit hok hk rfl hdurable le_rfl le_rfl rfl

/-! ## All steps -/

variable (start) in
/-- The operations log few blocks, and none of them is in the log itself. -/
def Careful (t : Fin nproc) (k : Pc) (c : Call) : Prop :=
  Frugal t k c ∧ ∀ x ∈ writing k c, Loggable start x.2

instance (b : Nat) : Decidable (IsHome start b) :=
  inferInstanceAs (Decidable (b < start ∨ start + logBlocks < b))

instance (b : Nat) : Decidable (Loggable start b) :=
  inferInstanceAs (Decidable (IsHome start b ∧ b < 2 ^ 32))

instance (t : Fin nproc) (k : Pc) (c : Call) : Decidable (Careful start t k c) :=
  inferInstanceAs (Decidable (Frugal t k c ∧ ∀ x ∈ writing k c, Loggable start x.2))

theorem keeps_diskOk :
    Monitor.Keeps (program start) (Careful start) fun s ks => Ok s ks ∧ DiskOk start base s ks where
  update {t s ks s' k'} hs h := by
    refine ⟨keeps_ok.update hs.1 h, ?_⟩
    obtain ⟨hok, hd⟩ := hs
    have hsound := hd.sound t
    generalize hk : ks t = k at h hsound
    cases Inside.of_eq h with
    | begin hc hroom => exact hd.begin hok hk hc
    | logFull op mine b hfull => exact absurd (hok.room hk) (Nat.not_lt.mpr hfull)
    | logOutside op mine b hout => exact absurd (hok.active_pos hk rfl) (Nat.not_le.mpr hout)
    | logWrite op mine b hroom hout => exact hd.logWrite hok hk
    | endPanic hc => exact absurd (hok.active_pos hk rfl) (by rw [hok.apart hc]; decide)
    | endLast hc hlast => exact hd.stay hk _ _ nofun rfl trivial
    | endOp hc hmore => exact hd.stay hk _ _ nofun rfl trivial
    | committed => exact hd.committed hk
    | syncBusy mark hbusy =>
      exact hd.stay hk _ _ nofun rfl ⟨hsound, fun hn => absurd hn (Nat.not_succ_le_self _)⟩
    | syncIdle mark hc hzero =>
      have hidle : ∀ u, (ks u).active = 0 := hok.idle hzero
      refine hd.stay hk _ _ nofun rfl ?_
      show mark ≤ s.durable
      rw [hd.durable_eq hidle (hok.empty hc hzero)]
      exact hsound
    | syncEnd n mark hle => exact hd.stay hk _ _ nofun rfl (hsound.2 hle)
    | panic => exact hd.stay hk _ _ nofun rfl trivial
  ifKilled {t s ks yes no} _ h := by
    generalize ks t = k at h
    cases Inside.of_eq h
  wakeup {t s ks c k'} hs h := by
    refine ⟨keeps_ok.wakeup hs.1 h, ?_⟩
    generalize hk : ks t = k at h
    cases Inside.of_eq h with
    | wake => exact hs.2.stay hk _ _ nofun rfl trivial
  wait {t s ks c k'} hs h := by
    refine ⟨keeps_ok.wait hs.1 h, ?_⟩
    have hsound := hs.2.sound t
    generalize hk : ks t = k at h hsound
    cases Inside.of_eq h with
    | beginWait hwait => exact hs.2.stay hk _ _ nofun rfl trivial
    | syncWait n mark hlt => exact hs.2.stay hk _ _ nofun rfl hsound
  release {t s ks k'} hs h := by
    refine ⟨keeps_ok.release hs.1 h, ?_⟩
    have hsound := hs.2.sound t
    generalize hk : ks t = k at h hsound
    cases Inside.of_eq h with
    | begun | logged | synced => exact hs.2.stay hk _ _ nofun rfl hsound
    | leave => exact hs.2.stay hk _ _ nofun rfl (Nat.zero_le _)
    | endCommit => exact hs.2.stay hk _ _ nofun rfl trivial
    | out k hout => exact hs.2.stay hk _ _ (fun _ h => h) rfl hsound
  enter {t s ks a k'} hs hcare h := by
    refine ⟨keeps_ok.enter hs.1 hcare.1 h, ?_⟩
    have hsound := hs.2.sound t
    generalize hk : ks t = k at h hsound
    cases Outside.of_eq h with
    | beginOp | endOp => exact hs.2.stay hk _ _ nofun rfl trivial
    | sync mark => exact hs.2.stay hk _ _ nofun rfl le_rfl
    | logWrite | done => exact hs.2.stay hk _ _ (fun _ h => h) rfl hsound
  change {t s ks a s' k'} hs hcare h := by
    refine ⟨keeps_ok.change hs.1 hcare.1 h, ?_⟩
    obtain ⟨hok, hd⟩ := hs
    generalize hk : ks t = k at h hcare
    cases Outside.of_eq h with
    | write op mine b data => exact hd.write hok data (hcare.2 _ rfl) hk
    | commit hne => exact hd.stay hk _ _ nofun rfl nofun
    | commitNothing hnil =>
      exact hd.stay hk _ _ nofun rfl
        (hd.durable_eq (hok.active_eq_zero (hok.committing_of hk rfl)) hnil)
    | writeLog i b hb => exact hd.writeLog hok hk hb
    | writeHead i hi => exact hd.writeHead hok hk hi
    | install i b hb => exact hd.install hok hk hb
    | installed i hi => exact hd.installed hok hk hi
    | clear => exact hd.clear hok hk

end UnixCShell.Xv6.Log
