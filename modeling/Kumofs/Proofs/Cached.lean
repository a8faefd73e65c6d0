import Kumofs.Proofs.Durable
import Kumofs.System.Cached

/-!
# A cached value is as good as a read one

A value the gateway has cached was put into the storage under the key it was asked for. Where the
clocktimes that are put for a key increase, the record that is there now is the newest of those, so
it is the cached one if that is not older. A tombstone is newer than all values before it, and
where no record is left nothing is taken for valid.
-/

namespace Kumofs

open Newest Storage

variable {key val : Bytes}

namespace Db

/-- What is there after an update is what was put, or was there and is of another key if something
was put. -/
theorem put_or_old {db : Db} {k v : Bytes} {proc : Bytes → Bool}
    (h : (db.update k v proc).1.lookup key = some val) :
    (if (db.update k v proc).2 then some (k, v) else none) = some (key, val) ∨
      db.lookup key = some val ∧
        ∀ p, (if (db.update k v proc).2 then some (k, v) else none) = some p → p.1 ≠ key := by
  by_cases hk : key = k
  · subst hk
    rw [lookup_update] at h
    rw [update_snd]
    split_ifs at h ⊢ with hp
    · cases h
      exact .inl rfl
    · exact .inr ⟨h, by simp⟩
  · rw [lookup_update_ne hk] at h
    refine .inr ⟨h, fun p hp => ?_⟩
    split_ifs at hp
    cases hp
    exact Ne.symm hk

end Db

namespace Storage

variable {s : Storage} {c : Operation}

/-- What is in the table after a call was put by it, or was there before. -/
theorem lookup_of_call (h : (s.call c).db.lookup key = some val) :
    s.puts c = some (key, val) ∨
      s.db.lookup key = some val ∧ ∀ p, s.puts c = some p → p.1 ≠ key := by
  cases c with
  | set k v =>
    by_cases hk : key = k.raw
    · subst hk
      left
      have hl : (s.set k.raw v.raw).db.lookup k.raw = some val := h
      rw [lookup_set] at hl
      cases hl
      rfl
    · have hl : (s.db.insert k.raw v.raw).lookup key = some val := h
      rw [AList.lookup_insert_ne hk] at hl
      refine .inr ⟨hl, fun p hp => ?_⟩
      cases hp
      exact Ne.symm hk
  | update k v => exact Db.put_or_old h
  | cas k v compare => exact Db.put_or_old h
  | remove k ct =>
    have hsnd : (s.remove k.raw ct).2 = (s.db.update k.raw (clocktimeTo ct) (updateproc ct)).2 :=
      remove_snd.trans Db.update_snd.symm
    have hput : s.puts (.remove k ct) = if (s.db.update k.raw (clocktimeTo ct)
        (updateproc ct)).2 then some (k.raw, clocktimeTo ct) else none := by
      rw [← hsnd]
      rfl
    rw [hput]
    exact Db.put_or_old (lookup_update_of_remove h)
  | forEach now => exact .inr ⟨lookup_of_sweep h, by simp [puts]⟩

/-- What is taken for valid is there with a clocktime that is not newer. -/
theorem lookup_of_cacheIsValid {ct : ClockTime} (h : s.cacheIsValid key ct = true) :
    ∃ e, s.db.lookup key = some e ∧ clocktimeOf e ≤ ct := by
  obtain ⟨e, he, hle⟩ := (Option.any_eq_true _ _).1 h
  exact ⟨e, he, by simpa using (Bool.and_eq_true_iff.1 hle).2⟩

end Storage

/-! ## Keys -/

theorem foldl_byte_inj : ∀ {l l' : Bytes} {n n' : ℕ}, l.length = l'.length →
    l.foldl (fun n b => n * 256 + b.toNat) n = l'.foldl (fun n b => n * 256 + b.toNat) n' →
    n = n' ∧ l = l'
  | [], [], _, _, _, h => ⟨h, rfl⟩
  | b :: l, b' :: l', n, n', hl, h => by
    obtain ⟨hn, rfl⟩ := foldl_byte_inj (Nat.succ.inj hl) h
    have hn : n * 256 + b.toNat = n' * 256 + b'.toNat := hn
    have hb := b.toNat_lt
    have hb' := b'.toNat_lt
    have hbb : b = b' := UInt8.toNat_inj.1 (by omega)
    exact ⟨by omega, by rw [hbb]⟩

theorem foldl_byte_lt : ∀ (l : Bytes) (n : ℕ),
    l.foldl (fun n b => n * 256 + b.toNat) n < (n + 1) * 256 ^ l.length
  | [], n => by simp
  | b :: l, n => by
    have hb := b.toNat_lt
    calc l.foldl (fun n b => n * 256 + b.toNat) (n * 256 + b.toNat)
        < (n * 256 + b.toNat + 1) * 256 ^ l.length := foldl_byte_lt l _
      _ ≤ ((n + 1) * 256) * 256 ^ l.length := Nat.mul_le_mul_right _ (by omega)
      _ = (n + 1) * 256 ^ (l.length + 1) := by rw [Nat.mul_assoc, ← Nat.pow_succ']

/-- A key is its hash and its data. -/
theorem DBKey.raw_eq {k k' : DBKey} (hh : k.hash = k'.hash) (hd : k.data = k'.data) :
    k.raw = k'.raw := by
  have hlen : ∀ k : DBKey, (k.raw.take keyMetaSize).length = keyMetaSize :=
    fun k => List.length_take_of_le k.meta_le
  have hlt : ∀ k : DBKey, ofBe (k.raw.take keyMetaSize) < UInt64.size := by
    intro k
    have h := foldl_byte_lt (k.raw.take keyMetaSize) 0
    rw [hlen] at h
    exact h
  have hof : ofBe (k.raw.take keyMetaSize) = ofBe (k'.raw.take keyMetaSize) := by
    have h := congrArg UInt64.toNat hh
    unfold DBKey.hash hashOf at h
    rwa [UInt64.toNat_ofNat_of_lt' (hlt k), UInt64.toNat_ofNat_of_lt' (hlt k')] at h
  have htake := (foldl_byte_inj ((hlen k).trans (hlen k').symm) hof).2
  rw [← List.take_append_drop keyMetaSize k.raw, htake]
  exact (congrArg _ hd).trans (List.take_append_drop keyMetaSize k'.raw)

namespace Gateway

variable {c : Cache} {k : DBKey} {v : DBValue}

namespace Cache

theorem get_eq_some (h : c.get k = some v) : ∃ db, c = some db ∧ db.lookup k.data = some v.raw := by
  obtain ⟨db, hdb, h⟩ := Option.bind_eq_some_iff.1 h
  obtain ⟨val, hval, h⟩ := Option.bind_eq_some_iff.1 h
  split_ifs at h
  cases h
  exact ⟨db, hdb, hval⟩

/-- What the cache has was there before or came with the reply. -/
theorem lookup_of_onReply {db : Db} {res : Option Reply} (h : c.onReply k res = some db)
    (hl : db.lookup key = some val) :
    (∃ db', c = some db' ∧ db'.lookup key = some val) ∨
      k.data = key ∧ res = some (.raw val) := by
  unfold onReply at h
  split at h
  next rawVal =>
    split_ifs at h
    · obtain ⟨db', hdb, rfl⟩ := Option.map_eq_some_iff.1 h
      rcases Db.lookup_of_update hl with ⟨rfl, rfl⟩ | hl
      · exact .inr ⟨rfl, rfl⟩
      · exact .inl ⟨db', hdb, hl⟩
    · exact .inl ⟨db, h, hl⟩
  next => exact .inl ⟨db, h, hl⟩

end Cache

namespace Caching

/-- Each key is used with its one hash at the gateway, and the clocktimes that are put for a key
increase. -/
def Orderly (C : Bytes → Set ClockTime) (oneHash : Bytes → UInt64) (s : Caching) : Act → Prop
  | .call c => ∀ p ∈ s.srv.storage.puts c, clocktimeOf p.2 ∈ C p.1 ∧
    ∀ old ∈ s.stored.lookup p.1, clocktimeOf old < clocktimeOf p.2
  | .submit k => k.hash = oneHash k.data
  | _ => True

/-- Every reply does for the callback what that of a plain `Get` would have done. -/
def Transparent (cfg : Config) (s : Caching) : Prop :=
  ∀ f ∈ s.fetches, ∀ res plain, f.stage = .answered res plain →
    f.onReply cfg res = resGet cfg f.retried plain

/-- The cache holds what the server has returned. -/
def HoldsReplies (s : Caching) : Prop :=
  ∀ db, s.cache = some db → ∀ data val, db.lookup data = some val →
    ∃ k : DBKey, k.data = data ∧ (k, some (.raw val)) ∈ s.replied

variable {C : Bytes → Set ClockTime} {oneHash : Bytes → UInt64} {self : Address} {cfg : Config}
  {s t : Caching} {a : Act}

/-- What is known of a request. -/
structure FetchOk (oneHash : Bytes → UInt64) (cfg : Config) (s : Caching) (f : Fetch) : Prop where
  hash : f.key.hash = oneHash f.key.data
  cached : ∀ v, f.cached = some v → (f.key.raw, v.raw) ∈ s.stored
  answered : ∀ res plain, f.stage = .answered res plain → (f.key, res) ∈ s.replied ∧
    f.onReply cfg res = resGet cfg f.retried plain

structure Inv (C : Bytes → Set ClockTime) (oneHash : Bytes → UInt64) (cfg : Config)
    (s : Caching) : Prop where
  stamped : ∀ p ∈ s.stored, clocktimeOf p.2 ∈ C p.1
  newest : ∀ key, IsNewest clocktimeOf {v | (key, v) ∈ s.stored} (s.stored.lookup key)
  latest : ∀ key val, s.srv.storage.db.lookup key = some val → s.stored.lookup key = some val
  replied : ∀ (k : DBKey) val, (k, some (.raw val)) ∈ s.replied →
    k.hash = oneHash k.data ∧ (k.raw, val) ∈ s.stored
  holds : s.HoldsReplies
  fetches : ∀ f ∈ s.fetches, s.FetchOk oneHash cfg f

/-! ## The storage -/

theorem FetchOk.mono {f : Fetch} (hf : s.FetchOk oneHash cfg f)
    (hr : ∀ x ∈ s.replied, x ∈ t.replied) (hs : ∀ x ∈ s.stored, x ∈ t.stored) :
    t.FetchOk oneHash cfg f :=
  ⟨hf.hash, fun v hv => hs _ (hf.cached v hv), fun res plain hst =>
    ⟨hr _ (hf.answered res plain hst).1, (hf.answered res plain hst).2⟩⟩

theorem Inv.mem_stored (inv : Inv C oneHash cfg s) {e : Bytes}
    (he : s.srv.storage.db.lookup key = some e) :
    (key, e) ∈ s.stored ∧ ∀ v, (key, v) ∈ s.stored → v = e ∨ clocktimeOf v < clocktimeOf e := by
  have hn := inv.newest key
  rw [inv.latest key e he] at hn
  exact hn

/-- A value is put that is newer than those before. -/
theorem newest_cons (hC : StrictTotal (C key)) {stored : List (Bytes × Bytes)}
    (hs : ∀ p ∈ stored, clocktimeOf p.2 ∈ C p.1)
    (hn : IsNewest clocktimeOf {v | (key, v) ∈ stored} (stored.lookup key))
    (hv : clocktimeOf val ∈ C key)
    (hlt : ∀ old ∈ stored.lookup key, clocktimeOf old < clocktimeOf val) :
    IsNewest clocktimeOf {v | (key, v) ∈ (key, val) :: stored} (some val) := by
  have hset : {v | (key, v) ∈ (key, val) :: stored} = insert val {v | (key, v) ∈ stored} := by
    ext v
    simp
  rw [hset]
  exact hn.supersede hC (fun v hm => hs (key, v) hm) hv hlt

theorem Inv.call (inv : Inv C oneHash cfg s) (hC : ∀ key, StrictTotal (C key)) {c : Operation}
    (hg : s.Orderly C oneHash (.call c)) :
    Inv C oneHash cfg { s with
      srv := { s.srv with storage := s.srv.storage.call c }
      stored := (s.srv.storage.puts c).toList ++ s.stored } := by
  cases hp : s.srv.storage.puts c with
  | none =>
    refine ⟨inv.stamped, inv.newest, fun key val h => ?_, inv.replied, inv.holds,
      fun f hf => (inv.fetches f hf).mono (fun _ => id) fun _ => id⟩
    rcases lookup_of_call h with h | ⟨h, -⟩
    · rw [hp] at h
      cases h
    · exact inv.latest key val h
  | some p =>
    obtain ⟨k, v⟩ := p
    obtain ⟨hv, hlt⟩ := hg (k, v) hp
    have hold : ∀ x ∈ s.stored, x ∈ (k, v) :: s.stored := fun _ => List.mem_cons_of_mem _
    have hne : ∀ key, key ≠ k → ((k, v) :: s.stored).lookup key = s.stored.lookup key := by
      intro key hk
      rw [List.lookup_cons, beq_false_of_ne hk]
    refine ⟨fun p hp => ?_, fun key => ?_, fun key val h => ?_, fun k' val' hr => ?_, inv.holds,
      fun f hf => (inv.fetches f hf).mono (fun _ => id) hold⟩
    · rcases List.mem_cons.1 hp with rfl | hp
      · exact hv
      · exact inv.stamped p hp
    · by_cases hk : key = k
      · subst hk
        simp only [Option.toList_some, List.singleton_append, List.lookup_cons_self]
        exact newest_cons (hC key) inv.stamped (inv.newest key) hv hlt
      · simp only [Option.toList_some, List.singleton_append, hne key hk, List.mem_cons,
          Prod.mk.injEq, hk, false_and, false_or]
        exact inv.newest key
    · simp only [Option.toList_some, List.singleton_append]
      rcases lookup_of_call h with h | ⟨h, hk⟩
      · rw [hp] at h
        cases h
        exact List.lookup_cons_self
      · rw [hne key (hk _ hp).symm]
        exact inv.latest key val h
    · exact ⟨(inv.replied k' val' hr).1, hold _ (inv.replied k' val' hr).2⟩

/-! ## Replies -/

theorem head_readReply (k : DBKey) (srv : Server.State) : (Server.readReply k srv).head? =
    some ((srv.storage.get k.raw).elim (.response .null) .raw) := by
  unfold Server.readReply
  cases srv.storage.get k.raw with
  | none => rfl
  | some rawVal => rfl

/-- A read value is there. -/
theorem lookup_of_readReply {k : DBKey} {srv : Server.State}
    (h : (Server.readReply k srv).head? = some (.raw val)) :
    srv.storage.db.lookup k.raw = some val := by
  rw [head_readReply] at h
  cases hg : srv.storage.get k.raw with
  | none => simp [hg] at h
  | some rawVal =>
    rw [hg] at h
    cases h
    exact (Option.filter_eq_some_iff.1 hg).1

/-- What is read does the same for both callbacks. -/
theorem onReply_readReply (f : Fetch) (srv : Server.State) :
    f.onReply cfg (Server.readReply f.key srv).head? =
      resGet cfg f.retried (Server.readReply f.key srv).head? := by
  rw [head_readReply]
  unfold Fetch.onReply
  cases f.cached with
  | none => rfl
  | some cached => cases srv.storage.get f.key.raw <;> rfl

/-- A cached value that is taken for valid is the one that is there. -/
theorem Inv.get_of_valid (inv : Inv C oneHash cfg s) {k : DBKey} {v : DBValue}
    (hv : (k.raw, v.raw) ∈ s.stored) (h : s.srv.storage.cacheIsValid k.raw v.clocktime = true) :
    s.srv.storage.get k.raw = some v.raw := by
  obtain ⟨e, he, hle⟩ := lookup_of_cacheIsValid h
  obtain ⟨-, hnew⟩ := inv.mem_stored he
  have hve : v.raw = e := (hnew v.raw hv).resolve_right hle
  unfold Storage.get
  rw [he, ← hve]
  exact Option.filter_eq_some_iff.2 ⟨rfl, by simpa using v.meta_le⟩

/-- A handler that nothing comes between replies as `GetIfModified` does. -/
theorem arrival_eq {srv : Server.State} {f : Fetch} {cached : DBValue}
    (hc : f.cached = some cached) :
    (Caching.arrival self srv f = .reading ∧
      (Server.onGetIfModified self f.key cached.clocktime srv).head? =
        (Server.readReply f.key srv).head?) ∨
    Caching.arrival self srv f =
      .answered (Server.onGetIfModified self f.key cached.clocktime srv).head?
        (Server.onGet self f.key srv).head? := by
  unfold Caching.arrival Server.onGetIfModified
  rw [hc]
  cases Server.checkReplicatorAssign self srv.rhs f.key.hash with
  | error e => exact .inr rfl
  | ok u =>
    simp only []
    split_ifs
    · exact .inr rfl
    · exact .inl ⟨rfl, rfl⟩

/-- Whatever the handler replies, or if it goes on to read. -/
theorem Inv.arrival (inv : Inv C oneHash cfg s) {f : Fetch} (hf : s.FetchOk oneHash cfg f)
    {res plain : Option Reply} (h : Caching.arrival self s.srv f = .answered res plain) :
    f.onReply cfg res = resGet cfg f.retried plain ∧
      ∀ val, res = some (.raw val) → s.srv.storage.db.lookup f.key.raw = some val := by
  unfold Caching.arrival Server.onGet at h
  cases he : Server.checkReplicatorAssign self s.srv.rhs f.key.hash with
  | error e =>
    rw [he] at h
    cases h
    refine ⟨?_, by simp⟩
    unfold Fetch.onReply
    cases f.cached <;> rfl
  | ok u =>
    rw [he] at h
    simp only [] at h
    cases hc : f.cached with
    | none =>
      rw [hc] at h
      cases h
      exact ⟨onReply_readReply f s.srv, fun val => lookup_of_readReply⟩
    | some cached =>
      rw [hc] at h
      simp only [] at h
      split_ifs at h with hvalid
      cases h
      refine ⟨?_, by simp⟩
      rw [head_readReply, inv.get_of_valid (hf.cached cached hc) hvalid, Fetch.onReply, hc]
      simp [resGetIfModified, resGet, cached.meta_le]

/-! ## Steps -/

/-- A request is past the server's check of its cached value, or has a reply. -/
theorem Inv.proceed (inv : Inv C oneHash cfg s) {i : ℕ} {f : Fetch} {stage : Stage}
    (hf : f ∈ s.fetches) (h : ∀ res plain, stage = .answered res plain →
      f.onReply cfg res = resGet cfg f.retried plain ∧
        ∀ val, res = some (.raw val) → s.srv.storage.db.lookup f.key.raw = some val) :
    Inv C oneHash cfg (s.proceed i f stage) := by
  have hok := inv.fetches f hf
  have hold : ∀ x ∈ s.replied, x ∈ (s.proceed i f stage).replied := by
    intro x hx
    unfold Caching.proceed
    split
    · exact List.mem_cons_of_mem _ hx
    · exact hx
  refine ⟨inv.stamped, inv.newest, inv.latest, fun k val hr => ?_, fun db hdb data val hl => ?_,
    fun g hg => ?_⟩
  · cases stage with
    | answered res plain =>
      rcases List.mem_cons.1 hr with he | hr
      · cases he
        exact ⟨hok.hash, (inv.mem_stored ((h _ _ rfl).2 val rfl)).1⟩
      · exact inv.replied k val hr
    | sent | reading => exact inv.replied k val hr
  · obtain ⟨k, hk, hr⟩ := inv.holds db hdb data val hl
    exact ⟨k, hk, hold _ hr⟩
  · rcases List.mem_or_eq_of_mem_set hg with hg | rfl
    · exact (inv.fetches g hg).mono hold fun _ => id
    · refine ⟨hok.hash, hok.cached, fun res plain hst => ⟨?_, ?_⟩⟩
      · have hst : stage = .answered res plain := hst
        subst hst
        exact List.mem_cons_self
      · exact (h res plain hst).1

/-- The callback brings the cache a value that the server has returned. -/
theorem Inv.finish (inv : Inv C oneHash cfg s) {i : ℕ} {f : Fetch} {res : Option Reply}
    (hf : f ∈ s.fetches) (hr : ∀ val, res = some (.raw val) → (f.key, res) ∈ s.replied) :
    Inv C oneHash cfg (s.finish cfg i f res) := by
  have hok := inv.fetches f hf
  refine ⟨inv.stamped, inv.newest, inv.latest, inv.replied, fun db hdb data val hl => ?_,
    fun g hg => ?_⟩
  · rcases Cache.lookup_of_onReply hdb hl with ⟨db', hdb', hl'⟩ | ⟨hk, rfl⟩
    · exact inv.holds db' hdb' data val hl'
    · exact ⟨f.key, hk, hr val rfl⟩
  · have again : ∀ n : UInt16, g ∈ s.fetches.set i { f with retried := n, stage := .sent } →
        s.FetchOk oneHash cfg g := by
      intro n hg
      rcases List.mem_or_eq_of_mem_set hg with hg | rfl
      · exact inv.fetches g hg
      · exact ⟨hok.hash, hok.cached, fun res plain hst => by cases hst⟩
    have hg' : s.FetchOk oneHash cfg g := by
      unfold Caching.finish at hg
      simp only [] at hg
      split at hg
      · exact inv.fetches g (List.mem_of_mem_eraseIdx hg)
      · exact again _ hg
      · exact again _ hg
    exact hg'.mono (fun _ => id) fun _ => id

/-- The cache is looked up with a key of which it has a value under the same hash. -/
theorem Inv.submit (inv : Inv C oneHash cfg s) {k : DBKey} (hk : k.hash = oneHash k.data) :
    Inv C oneHash cfg { s with fetches := s.fetches ++ [⟨k, s.cache.get k, 0, .sent⟩] } := by
  refine ⟨inv.stamped, inv.newest, inv.latest, inv.replied, inv.holds, fun g hg => ?_⟩
  rcases List.mem_append.1 hg with hg | hg
  · exact (inv.fetches g hg).mono (fun _ => id) fun _ => id
  · rw [List.mem_singleton.1 hg]
    refine ⟨hk, fun v hv => ?_, fun res plain hst => by cases hst⟩
    obtain ⟨db, hdb, hl⟩ := Cache.get_eq_some hv
    obtain ⟨k', hk', hr⟩ := inv.holds db hdb _ _ hl
    obtain ⟨hh, hm⟩ := inv.replied k' v.raw hr
    have hraw : k'.raw = k.raw := by
      refine DBKey.raw_eq ?_ hk'
      rw [hh, hk, hk']
    rwa [hraw] at hm

theorem Inv.evict (inv : Inv C oneHash cfg s) (data : Bytes) :
    Inv C oneHash cfg { s with cache := s.cache.map (·.erase data) } := by
  refine ⟨inv.stamped, inv.newest, inv.latest, inv.replied, fun db hdb data' val hl => ?_,
    fun g hg => (inv.fetches g hg).mono (fun _ => id) fun _ => id⟩
  obtain ⟨db', hdb', rfl⟩ := Option.map_eq_some_iff.1 hdb
  exact inv.holds db' hdb' data' val (Db.lookup_of_erase hl)

theorem Inv.step (inv : Inv C oneHash cfg s) (hC : ∀ key, StrictTotal (C key))
    (hg : s.Orderly C oneHash a) (hs : Caching.step self cfg s a = some t) :
    Inv C oneHash cfg t := by
  cases a with
  | call c =>
    cases hs
    exact inv.call hC hg
  | change whs rhs clock =>
    cases hs
    exact ⟨inv.stamped, inv.newest, inv.latest, inv.replied, inv.holds,
      fun g hg => (inv.fetches g hg).mono (fun _ => id) fun _ => id⟩
  | submit k =>
    cases hs
    exact inv.submit hg
  | arrive i =>
    obtain ⟨f, hf, rfl⟩ := Option.map_eq_some_iff.1 hs
    have hf := List.mem_of_getElem? (Option.filter_eq_some_iff.1 hf).1
    exact inv.proceed hf fun res plain h => inv.arrival (inv.fetches f hf) h
  | read i =>
    obtain ⟨f, hf, rfl⟩ := Option.map_eq_some_iff.1 hs
    have hf := List.mem_of_getElem? (Option.filter_eq_some_iff.1 hf).1
    refine inv.proceed hf fun res plain h => ?_
    cases h
    exact ⟨onReply_readReply f s.srv, fun val => lookup_of_readReply⟩
  | callback i =>
    obtain ⟨f, hf, hs⟩ := Option.bind_eq_some_iff.1 hs
    have hf := List.mem_of_getElem? hf
    split at hs
    next res plain hst =>
      cases hs
      exact inv.finish hf fun val _ => ((inv.fetches f hf).answered res plain hst).1
    next => cases hs
  | lost i =>
    obtain ⟨f, hf, rfl⟩ := Option.map_eq_some_iff.1 hs
    exact inv.finish (List.mem_of_getElem? hf) (by simp)
  | evict data =>
    cases hs
    exact inv.evict data

/-! ## Runs -/

theorem lookup_map_entries : ∀ es : List (Sigma fun _ : Bytes => Bytes),
    (es.map fun e => (e.1, e.2)).lookup key = es.dlookup key
  | [] => rfl
  | e :: es => by
    obtain ⟨k, v⟩ := e
    by_cases hk : key = k
    · subst hk
      rw [List.map_cons, List.lookup_cons_self, List.dlookup_cons_eq]
    · rw [List.map_cons, List.lookup_cons, beq_false_of_ne hk, List.dlookup_cons_ne _ _ hk]
      exact lookup_map_entries es

theorem mem_map_entries {db : Db} :
    (key, val) ∈ db.entries.map (fun e => (e.1, e.2)) ↔ db.lookup key = some val := by
  rw [List.mem_map]
  constructor
  · rintro ⟨⟨k, v⟩, he, heq⟩
    cases heq
    exact AList.mem_lookup_iff.2 he
  · intro h
    exact ⟨⟨key, val⟩, AList.mem_lookup_iff.1 h, rfl⟩

theorem inv_init {srv : Server.State}
    (hE : ∀ key val, srv.storage.db.lookup key = some val → clocktimeOf val ∈ C key)
    (cache : Bool) : Inv C oneHash cfg (init srv cache) := by
  have hlookup : ∀ key, (init srv cache).stored.lookup key = srv.storage.db.lookup key :=
    fun key => lookup_map_entries _
  refine ⟨fun p hp => hE p.1 p.2 (mem_map_entries.1 hp), fun key => ?_, fun key val h => ?_,
    fun k val hr => absurd hr List.not_mem_nil, fun db hdb data val hl => ?_,
    fun f hf => absurd hf List.not_mem_nil⟩
  · rw [hlookup]
    have hset : {v | (key, v) ∈ (init srv cache).stored} =
        {v | srv.storage.db.lookup key = some v} := Set.ext fun v => mem_map_entries
    rw [hset]
    cases hl : srv.storage.db.lookup key with
    | none => exact Set.eq_empty_of_forall_notMem fun v hv => by cases hv
    | some e => exact ⟨rfl, fun x hx => .inl (Option.some.inj hx).symm⟩
  · rw [hlookup]
    exact h
  · cases cache with
    | true =>
      cases hdb
      cases hl
    | false => cases hdb

/-- Whatever is put into the storage of the server, a `Get` through the cache gives what one without
it would have given, and the cache holds nothing but what the server has returned. -/
theorem cached_get_eq_get (hC : ∀ key, StrictTotal (C key)) {srv : Server.State} {cache : Bool}
    (hE : ∀ key val, srv.storage.db.lookup key = some val → clocktimeOf val ∈ C key)
    {as : List Act}
    (hrun : Machine.Run (step self cfg) (Orderly C oneHash) (init srv cache) as s) :
    s.Transparent cfg ∧ s.HoldsReplies := by
  have inv : Inv C oneHash cfg s :=
    hrun.inv (fun _ _ _ inv hg hs => inv.step hC hg hs) (inv_init hE cache)
  exact ⟨fun f hf res plain hst => ((inv.fetches f hf).answered res plain hst).2, inv.holds⟩

/-! A value is set and read twice, the second time through the cache. -/

section Sample

open Sample StoreNet

instance (C : Bytes → Set ClockTime) [∀ key, DecidablePred (· ∈ C key)] (oneHash : Bytes → UInt64)
    (s : Caching) : DecidablePred (s.Orderly C oneHash)
  | .call c => inferInstanceAs (Decidable (∀ p ∈ s.srv.storage.puts c, _ ∧
      ∀ old ∈ s.stored.lookup p.1, _))
  | .submit _ => inferInstanceAs (Decidable (_ = _))
  | .change .. | .arrive _ | .read _ | .callback _ | .lost _ | .evict _ =>
    inferInstanceAs (Decidable True)

def readTwice : List Act :=
  [.call (.set sampleCfg.key ⟨entryVal, meta_le_entryVal⟩), .submit sampleCfg.key, .arrive 0,
    .callback 0, .submit sampleCfg.key, .arrive 0]

theorem readTwice_cached :
    ((Machine.execIf (step (svr 1) ⟨1, 1, 1⟩) (Orderly (fun _ => {ct | ct ∈ ticks}) fun _ => 0)
      (init (emptyServer twoSeed twoSeed) true) readTwice).any fun s =>
        s.fetches = [⟨sampleCfg.key, some ⟨entryVal, meta_le_entryVal⟩, 0,
          .answered (some (.response (.bool true))) (some (.raw entryVal))⟩]) = true := by
  decide +kernel

theorem cached_get_readTwice : ∃ s : Caching,
    Machine.Run (step (svr 1) ⟨1, 1, 1⟩) (Orderly (fun _ => {ct | ct ∈ ticks}) fun _ => 0)
      (init (emptyServer twoSeed twoSeed) true) readTwice s ∧
    s.fetches = [⟨sampleCfg.key, some ⟨entryVal, meta_le_entryVal⟩, 0,
      .answered (some (.response (.bool true))) (some (.raw entryVal))⟩] ∧
    s.Transparent ⟨1, 1, 1⟩ ∧ s.HoldsReplies := by
  obtain ⟨s, hs, hf⟩ := (Option.any_eq_true _ _).1 readTwice_cached
  have hrun := Machine.execIf_run hs
  have hE : ∀ key val, (emptyServer twoSeed twoSeed).storage.db.lookup key = some val →
      clocktimeOf val ∈ {ct | ct ∈ ticks} := fun key val h => by cases h
  exact ⟨s, hrun, of_decide_eq_true hf, cached_get_eq_get (fun _ => strictTotal_ticks) hE hrun⟩

end Sample

end Caching

end Gateway

end Kumofs
