import Kumofs.Proofs.CopyJob
import Kumofs.Proofs.Reported
import Kumofs.Sample

/-!
# No delete phase takes the last copy of an entry

A replace starts while no delete phase is under way and every owner of an entry that stays has it.
Its copies bring the entry to the servers that are new to it: the first owner has reported only
when they have it. So when the delete phase is sent off, every server the new hash space assigns the
entry to has it, and these the deletes leave alone.
-/

namespace Kumofs

open Server

/-- A message that starts a delete phase. -/
def ServerMsg.isDelete : ServerMsg → Bool
  | .replaceDeleteStart .. => true
  | _ => false

namespace Start

variable (hash : Bytes → UInt64) (key : Bytes) (st : Start)

def time : ClockTime := st.wseed.clocktime

def src : HashSpace := .ofSeed hash st.rseed

def dst : HashSpace := .ofSeed hash st.wseed

/-- The owners of a key that stay. -/
def owners : List Address := Replacing.owners (st.src hash) (st.dst hash) key

/-- The servers that are new to a key. -/
def newbies : List Address := Server.newbies (st.src hash) (st.dst hash) (Storage.hashOf key)

/-- The servers that a key is assigned to. -/
def assigned : List Address := (st.dst hash).activeAssigned (Storage.hashOf key)

variable {hash key st}

theorem assigned_cases {a : Address} (ha : a ∈ st.assigned hash key) :
    a ∈ st.owners hash key ∨ a ∈ st.newbies hash key := by
  by_cases hs : a ∈ (st.src hash).activeAssigned (Storage.hashOf key)
  · refine .inl (mem_currentOwners.2 ⟨hs, fun hf => (mem_faultNodes.1 hf).2 ?_⟩)
    exact HashSpace.mem_getActiveNodes_of_activeAssigned ha
  · exact .inr (mem_newbies.2 ⟨ha, hs⟩)

theorem ne_of_mem_newbies {a : Address} (ha : a ∈ st.newbies hash key) : st.rseed ≠ st.wseed := by
  intro he
  have := mem_newbies.1 ha
  unfold src dst at this
  rw [he] at this
  exact this.2 this.1

theorem active_of_mem_owners {a : Address} (ha : a ∈ st.owners hash key) :
    a ∈ (st.dst hash).getActiveNodes := active_of_mem_currentOwners ha

theorem not_skips {a : Address} (ha : a ∈ st.owners hash key) :
    skipsReplace a (st.src hash) (st.dst hash) = false :=
  skipsReplace_eq_false (List.ne_nil_of_mem (HashSpace.mem_getActiveNodes_of_activeAssigned
    (mem_currentOwners.1 ha).1)) (active_of_mem_owners ha)

end Start

namespace ReplaceNet

variable {hash : Bytes → UInt64} {key val : Bytes}

/-- What a server holds of a key. -/
def holds (s : ReplaceNet) (key : Bytes) (n : Address) : Option Bytes :=
  (s.srv n).storage.db.lookup key

section Guard

variable (hash : Bytes → UInt64) (key val : Bytes)

/-- A replace that may start: no delete phase is under way, its time is new if it has to move
anything, it is sent to all the servers that are active in it, and the entry is held by its owners,
of which some stay, and assigned to a server. -/
def Prepared (s : ReplaceNet) (st : Start) : Prop :=
  (s.deletes = [] ∧ ∀ d ∈ s.wire, d.2.isDelete = false) ∧
  (st.rseed ≠ st.wseed → ∀ st' ∈ s.starts, st'.time ≠ st.time) ∧
  (∀ a ∈ (st.dst hash).getActiveNodes, a ∈ st.dests) ∧
  st.owners hash key ≠ [] ∧ (∀ a ∈ st.owners hash key, s.holds key a = some val) ∧
  st.assigned hash key ≠ []

instance (s : ReplaceNet) (st : Start) : Decidable (s.Prepared hash key val st) :=
  inferInstanceAs (Decidable ((_ ∧ _) ∧ _))

/-- Replaces start prepared, a task for a time begins when no work for that time is left, and a
server's `rhs` is the manager's of the start when its copy takes it. -/
def Careful (s : ReplaceNet) : Act → Prop
  | .manager b => ∀ r ∈ handle hash s.mgr b, ∀ d ∈ copyStartOf r.2,
    s.Prepared hash key val ⟨d.2, r.1.rhs.seed, d.1⟩
  | .begin n k => Copier.BeginsQuiet (s.srv n).copier (.begin k)
  | .switch n k => ∀ job ∈ s.scanning n k, ∀ st ∈ s.starts.head?, job.hs.clocktime = st.time →
    st.rseed ≠ st.wseed → (s.srv n).rhs = st.src hash
  | a => s.Matched a

instance (s : ReplaceNet) : ∀ a, Decidable (s.Careful hash key val a)
  | .manager b => inferInstanceAs (Decidable (∀ r ∈ handle hash s.mgr b, ∀ d ∈ copyStartOf r.2,
      s.Prepared hash key val ⟨d.2, r.1.rhs.seed, d.1⟩))
  | .begin n k => inferInstanceAs (Decidable (Copier.BeginsQuiet (s.srv n).copier (.begin k)))
  | .switch n k => inferInstanceAs (Decidable (∀ job ∈ s.scanning n k, ∀ st ∈ s.starts.head?,
      job.hs.clocktime = st.time → st.rseed ≠ st.wseed → (s.srv n).rhs = st.src hash))
  | .copyEnd k c => inferInstanceAs (Decidable (s.Matched (.copyEnd k c)))
  | .delete k now => inferInstanceAs (Decidable (s.Matched (.delete k now)))
  | .receive _ | .scan .. | .skip .. | .offer .. | .resume .. | .scanEnd .. | .finish ..
  | .accept .. | .pop .. | .timeout .. => inferInstanceAs (Decidable True)

theorem Careful.matched {hash : Bytes → UInt64} {key val : Bytes} {s : ReplaceNet} {a : Act}
    (h : s.Careful hash key val a) : s.Matched a := by
  cases a with
  | copyEnd | delete => exact h
  | _ => trivial

end Guard

/-- The entry on its way to where the last replace assigns it. -/
structure Moving (hash : Bytes → UInt64) (key val : Bytes) (s : ReplaceNet) (st : Start) :
    Prop where
  owned : st.owners hash key ≠ []
  assigned : st.assigned hash key ≠ []
  connected : ∀ a ∈ (st.dst hash).getActiveNodes, a ∈ st.dests
  fresh : st.rseed ≠ st.wseed → ∀ st' ∈ s.starts.tail, st'.time ≠ st.time
  source : st.rseed ≠ st.wseed → ∀ n, ∀ job ∈ (s.srv n).jobs, job.hs.clocktime = st.time →
    ∀ hs ∈ job.src, hs = st.src hash
  copied : ∀ f ∈ (st.owners hash key).head?, st.time ∈ (s.srv f).visited →
    ∀ a ∈ st.newbies hash key, s.holds key a = some val ∨
      (s.srv f).Carries st.time ⟨a, key, val⟩
  moved : ∀ f ∈ (st.owners hash key).head?, (f, st.time) ∈ s.reports ∨ (f, st.time) ∈ s.reported →
    ∀ a ∈ st.newbies hash key, s.holds key a = some val
  held : s.ended = false → (∀ a ∈ st.owners hash key, s.holds key a = some val) ∧
    s.deletes = [] ∧ ∀ d ∈ s.wire, d.2.isDelete = false
  done : s.ended = true → (∀ a ∈ st.assigned hash key, s.holds key a = some val) ∧
    (∀ d ∈ s.deletes, d.2 = st.dst hash) ∧
    ∀ d ∈ s.wire, ∀ seed c, d.2 = .replaceDeleteStart seed c → seed = st.wseed

structure Inv (hash : Bytes → UInt64) (key val : Bytes) (s : ReplaceNet) : Prop where
  told : s.Told hash
  nodes : ∀ n, (s.srv n).Inv hash s.starts key val
  times : ∀ r, r ∈ s.reports ∨ r ∈ s.reported → ∃ st ∈ s.starts, st.time = r.2
  wire : ∀ d ∈ s.wire, ∀ seed c full, d.2 = .replaceCopyStart seed c full →
    ∃ st ∈ s.starts, st.wseed = seed
  last : ∀ st ∈ s.starts.head?, s.Moving hash key val st

variable {s t : ReplaceNet} {n : Address} {x : ServerNode}

/-! ## One server at a time -/

theorem holds_of_srv (hsrv : t.srv = Function.update s.srv n x)
    (hl : s.holds key n = some val → x.storage.db.lookup key = some val) {a : Address}
    (ha : s.holds key a = some val) : t.holds key a = some val := by
  unfold holds at *
  rw [hsrv]
  by_cases hn : a = n
  · subst hn
    rw [Function.update_self]
    exact hl ha
  · rwa [Function.update_of_ne hn]

/-- A server changes. What it carried it carries or has brought, and it reports only when it
carries nothing. -/
theorem Inv.update (h : s.Inv hash key val) (ha : Aside s t)
    (hsrv : t.srv = Function.update s.srv n x) (hx : x.Inv hash s.starts key val)
    (hl : s.holds key n = some val → x.storage.db.lookup key = some val)
    (hrep : ∀ r ∈ t.reports, r ∈ s.reports ∨ r.1 = n ∧ r.2 ∈ x.visited ∧ x.copier.Quiet r.2)
    (hsrc : ∀ st ∈ s.starts.head?, st.rseed ≠ st.wseed → ∀ job ∈ x.jobs,
      job.hs.clocktime = st.time → ∀ hs ∈ job.src, hs = st.src hash)
    (hcop : ∀ st ∈ s.starts.head?, s.Moving hash key val st →
      (st.owners hash key).head? = some n → st.time ∈ x.visited →
      ∀ a ∈ st.newbies hash key, s.holds key a = some val ∨ x.Carries st.time ⟨a, key, val⟩) :
    t.Inv hash key val := by
  have keeps : ∀ {a}, s.holds key a = some val → t.holds key a = some val := holds_of_srv hsrv hl
  have hself : t.srv n = x := by rw [hsrv, Function.update_self]
  have hother : ∀ {m}, m ≠ n → t.srv m = s.srv m := fun hm => by
    rw [hsrv, Function.update_of_ne hm]
  refine ⟨h.told.aside ha, fun m => ?_, fun r hr => ?_, ?_, ?_⟩
  · rw [ha.starts]
    by_cases hm : m = n
    · subst hm
      exact hself ▸ hx
    · exact hother hm ▸ h.nodes m
  · rw [ha.starts]
    rcases hr with hr | hr
    · rcases hrep r hr with hr | ⟨-, hv, -⟩
      · exact h.times r (.inl hr)
      · exact hx.times _ hv
    · exact h.times r (.inr (ha.reported ▸ hr))
  · rw [ha.wire, ha.starts]
    exact h.wire
  · rw [ha.starts]
    intro st hst
    have hm := h.last st hst
    refine ⟨hm.owned, hm.assigned, hm.connected, ha.starts ▸ hm.fresh, fun hne m => ?_,
      fun f hf hv a hna => ?_, fun f hf hr a hna => ?_, fun he => ?_, fun he => ?_⟩
    · by_cases hmn : m = n
      · subst hmn
        exact hself ▸ hsrc st hst hne
      · exact hother hmn ▸ hm.source hne m
    · by_cases hfn : f = n
      · subst hfn
        rw [hself] at hv ⊢
        exact (hcop st hst hm hf hv a hna).imp_left keeps
      · rw [hother hfn] at hv ⊢
        exact (hm.copied f hf hv a hna).imp_left keeps
    · rcases hr with hr | hr
      · rcases hrep _ hr with hr | ⟨rfl, hv, hq⟩
        · exact keeps (hm.moved f hf (.inl hr) a hna)
        · exact keeps ((hcop st hst hm hf hv a hna).resolve_right (hx.not_carries hq))
      · exact keeps (hm.moved f hf (.inr (ha.reported ▸ hr)) a hna)
    · obtain ⟨ho, hd, hw⟩ := hm.held (ha.ended ▸ he)
      exact ⟨fun a hao => keeps (ho a hao), ha.deletes ▸ hd, ha.wire ▸ hw⟩
    · obtain ⟨ho, hd, hw⟩ := hm.done (ha.ended ▸ he)
      exact ⟨fun a hao => keeps (ho a hao), ha.deletes ▸ hd, ha.wire ▸ hw⟩

/-- A step of a server's copier. -/
theorem Inv.copy (h : s.Inv hash key val) {a : Copier.Act (List Offer)} {jobs : List Job}
    (hg : Copier.BeginsQuiet (s.srv n).copier a)
    (hx : ∀ c, (s.srv n).copier.step a = some c →
      ({ s.srv n with copier := c, jobs := jobs } : ServerNode).Inv hash s.starts key val)
    (hsrc : ∀ job ∈ jobs, ∃ job' ∈ (s.srv n).jobs, job.hs = job'.hs ∧ job.src = job'.src)
    (hcar : ∀ c u b, (s.srv n).copier.step a = some c → (s.srv n).Carries u ⟨b, key, val⟩ →
      s.holds key b = some val ∨
        ({ s.srv n with copier := c, jobs := jobs } : ServerNode).Carries u ⟨b, key, val⟩)
    (hs : s.copy n a jobs = some t) : t.Inv hash key val := by
  have ha := copy_aside hs
  obtain ⟨c, hc, rfl⟩ := Option.map_eq_some_iff.1 hs
  refine h.update ha rfl (hx c hc) id (fun r hr => ?_) (fun st hst hne job hj ht => ?_)
    fun st hst hm hf hv b hb => ?_
  · rcases List.mem_append.1 hr with hr | hr
    · exact .inl hr
    · obtain ⟨u, hu, rfl⟩ := List.mem_map.1 hr
      exact .inr ⟨rfl, (h.nodes n).reports (u := u) hg hc hu⟩
  · obtain ⟨job', hj', he, hsrc'⟩ := hsrc job hj
    rw [hsrc']
    exact (h.last st hst).source hne n job' hj' (he ▸ ht)
  · exact (hm.copied n hf hv b hb).elim .inl (hcar c _ b hc)

/-- A step of a server's copier that leaves its jobs and streams as they are. -/
theorem Inv.copy_same (h : s.Inv hash key val) {a : Copier.Act (List Offer)}
    (hg : Copier.BeginsQuiet (s.srv n).copier a)
    (hx : ∀ c, (s.srv n).copier.step a = some c →
      ({ s.srv n with copier := c } : ServerNode).Inv hash s.starts key val)
    (hun : ∀ c, (s.srv n).copier.step a = some c → c.unacked = (s.srv n).copier.unacked)
    (hs : s.copy n a (s.srv n).jobs = some t) : t.Inv hash key val := by
  refine h.copy hg hx (fun job hj => ⟨job, hj, rfl, rfl⟩) (fun c u b hc hcar => .inr ?_) hs
  rcases hcar with ⟨st, hst, hcar⟩ | hcar
  · exact .inl ⟨st, (hun c hc).symm ▸ hst, hcar⟩
  · exact .inr hcar

theorem Inv.begin (h : s.Inv hash key val) {k : ℕ} (hg : s.Careful hash key val (.begin n k))
    (hs : step hash s (.begin n k) = some t) : t.Inv hash key val := by
  refine h.copy_same (n := n) (a := .begin k) hg (fun c => (h.nodes n).begin hg) (fun c hc => ?_) hs
  obtain ⟨task, -, rfl⟩ := Option.map_eq_some_iff.1 hc
  rfl

theorem Inv.resume (h : s.Inv hash key val) {k : ℕ} (hs : step hash s (.resume n k) = some t) :
    t.Inv hash key val := by
  refine h.copy_same (a := .resume k) trivial (fun c => (h.nodes n).resume) (fun c hc => ?_) hs
  obtain ⟨task, -, hc⟩ := Option.bind_eq_some_iff.1 hc
  split_ifs at hc
  cases hc
  rfl

theorem Inv.pop (h : s.Inv hash key val) {k : ℕ} (hs : step hash s (.pop n k) = some t) :
    t.Inv hash key val := by
  refine h.copy_same (a := .pop k) trivial (fun c => (h.nodes n).pop) (fun c hc => ?_) hs
  obtain ⟨u, -, rfl⟩ := Option.map_eq_some_iff.1 hc
  obtain ⟨state, sent, he, -⟩ := Copier.replaceOfferPop_eq
    { (s.srv n).copier with popping := (s.srv n).copier.popping.eraseIdx k } u
  rw [he]

theorem Inv.timeout (h : s.Inv hash key val) {a : Address}
    (hs : step hash s (.timeout n a) = some t) : t.Inv hash key val := by
  refine h.copy_same (a := .timeout a) trivial (fun c => (h.nodes n).timeout) (fun c hc => ?_) hs
  obtain ⟨st, -, rfl⟩ := Option.map_eq_some_iff.1 hc
  rfl

/-- A task that ends has sent off all it had. -/
theorem Inv.finish (h : s.Inv hash key val) {k : ℕ} (hs : step hash s (.finish n k) = some t) :
    t.Inv hash key val := by
  refine h.copy (a := .finish k) trivial (fun c => (h.nodes n).finish)
    (fun job hj => ⟨job, List.mem_of_mem_eraseIdx hj, rfl, rfl⟩) (fun c u b hc hcar => .inr ?_) hs
  obtain ⟨task, htask, rfl⟩ := Option.map_eq_some_iff.1 hc
  obtain ⟨state, sent, he, -⟩ := Copier.replaceOfferPop_eq
    { (s.srv n).copier with tasks := (s.srv n).copier.tasks.eraseIdx k } task.replaceTime
  rw [he]
  rcases hcar with hcar | ⟨job, hj, ht, r, hr, ho⟩
  · exact .inl hcar
  · obtain ⟨j, hj⟩ := List.mem_iff_getElem?.1 hj
    have hjk : j ≠ k := by
      rintro rfl
      obtain ⟨hk, hp⟩ := Copier.taskIn_eq htask
      rw [(Paired.getElem?_right (h.nodes n).fits hk hj).sentOff hp r hr] at ho
      exact List.not_mem_nil ho
    exact .inr ⟨job, List.mem_eraseIdx_iff_getElem?.2 ⟨j, hjk, hj⟩, ht, r, hr, ho⟩

theorem scanning_eq {k : ℕ} {job : Job} (h : s.scanning n k = some job) :
    ∃ task, (s.srv n).copier.taskIn k .scanning = some task ∧ (s.srv n).jobs[k]? = some job := by
  obtain ⟨task, ht, hj⟩ := Option.bind_eq_some_iff.1 h
  exact ⟨task, ht, hj⟩

/-- Records that go off are in streams to their receivers. -/
theorem Inv.sendOffer (h : s.Inv hash key val) {k : ℕ} {job : Job} {records off rest : List Offer}
    {a : Copier.Act (List Offer)} {p : Phase} (hj : s.scanning n k = some job)
    (hr : job.records = some records) (hoff : off ⊆ records) (hrest : rest ⊆ records)
    (hall : records ⊆ off ++ rest) (hp : p ≠ .submitted) (hend : p = .scanned → rest = [])
    (ha : ∀ c : Copier (List Offer), c.step a = (c.taskIn k .scanning).map fun task =>
      (c.setPhase k task p).sendOffer task.replaceTime (streams off))
    (hg : Copier.BeginsQuiet (s.srv n).copier a)
    (hs : s.copy n a (s.setJob n k { job with records := some rest }) = some t) :
    t.Inv hash key val := by
  obtain ⟨task, htask, hjob⟩ := scanning_eq hj
  have htime := (Paired.getElem?_right (h.nodes n).fits (Copier.taskIn_eq htask).1 hjob).time
  have hstep : ∀ c, (s.srv n).copier.step a = some c →
      c = ((s.srv n).copier.setPhase k task p).sendOffer task.replaceTime (streams off) := by
    intro c hc
    rw [ha, htask] at hc
    exact (Option.some.inj hc).symm
  refine h.copy hg (fun c hc => ?_) (fun job' hj' => ?_) (fun c u b hc hcar => .inr ?_) hs
  · rw [hstep c hc]
    exact (h.nodes n).sendOffer htask hjob hr hoff hrest hp hend
  · rcases List.mem_or_eq_of_mem_set hj' with hj' | rfl
    · exact ⟨job', hj', rfl, rfl⟩
    · exact ⟨job, List.mem_of_getElem? hjob, rfl, rfl⟩
  · rw [hstep c hc]
    refine hcar.set hjob (List.subset_append_left _ _) rfl fun ht r hr' ho => ?_
    rw [← Option.some.inj (hr.symm.trans hr')] at ho
    rcases List.mem_append.1 (hall ho) with ho | ho
    · obtain ⟨st, hst, hd, hmem⟩ := mem_streams ho
      exact .inl ⟨⟨st.1, task.replaceTime, st.2⟩,
        List.mem_append_right _ (List.mem_map.2 ⟨st, hst, rfl⟩), hd, htime.trans ht, hmem⟩
    · exact ServerNode.carries_of_set hjob rfl ht rfl ho

theorem Inv.offer (h : s.Inv hash key val) {k m : ℕ} (hs : step hash s (.offer n k m) = some t) :
    t.Inv hash key val := by
  obtain ⟨job, hj, hs⟩ := Option.bind_eq_some_iff.1 hs
  obtain ⟨records, hr, hs⟩ := Option.bind_eq_some_iff.1 hs
  refine h.sendOffer (a := .offer k (streams (records.take m))) (p := .waiting) hj hr
    (List.take_subset m records) (List.drop_subset m records) ?_ (by decide) (by simp)
    (fun c => rfl) trivial hs
  rw [List.take_append_drop]
  exact List.Subset.refl _

theorem Inv.scanEnd (h : s.Inv hash key val) {k : ℕ} (hs : step hash s (.scanEnd n k) = some t) :
    t.Inv hash key val := by
  obtain ⟨job, hj, hs⟩ := Option.bind_eq_some_iff.1 hs
  obtain ⟨records, hr, hs⟩ := Option.bind_eq_some_iff.1 hs
  exact h.sendOffer (a := .scanEnd k (streams records)) (p := .scanned) hj hr
    (List.Subset.refl _) (List.nil_subset _) (List.subset_append_left _ _) (by decide)
    (fun _ => rfl) (fun c => rfl) trivial hs

/-- A job for the time of the last replace is for its hash space, if that is new. -/
theorem Inv.hs_of_time (h : s.Inv hash key val) {st : Start} (hst : st ∈ s.starts.head?)
    (hne : st.rseed ≠ st.wseed) {job : Job} (hj : job ∈ (s.srv n).jobs)
    (ht : job.hs.clocktime = st.time) : job.hs = st.dst hash := by
  obtain ⟨st', hst', he⟩ := (h.nodes n).spaces job hj
  have ht' : st'.time = st.time := by
    rw [he] at ht
    exact ht
  obtain ⟨rest, hrest⟩ := List.head?_eq_some_iff.1 hst
  have hfresh := (h.last st hst).fresh hne
  rw [hrest] at hst' hfresh
  rcases List.mem_cons.1 hst' with rfl | hst'
  · exact he
  · exact absurd ht' (hfresh st' hst')

theorem setSrv_self : (s.setSrv n x).srv n = x := Function.update_self ..

theorem Inv.switch (h : s.Inv hash key val) {k : ℕ} (hg : s.Careful hash key val (.switch n k))
    (hs : step hash s (.switch n k) = some t) : t.Inv hash key val := by
  obtain ⟨job, hj, hs⟩ := Option.bind_eq_some_iff.1 hs
  split_ifs at hs
  cases hs
  obtain ⟨task, htask, hjob⟩ := scanning_eq hj
  refine h.update (n := n) ⟨rfl, rfl, rfl, rfl, rfl, rfl⟩ (by rfl)
    ((h.nodes n).switch htask hjob _ _) id (fun r hr => .inl hr) (fun st hst hne job' hj' ht => ?_)
    fun st hst hm hf hv a ha => ?_
  · rcases List.mem_or_eq_of_mem_set hj' with hj' | rfl
    · exact (h.last st hst).source hne n job' hj' ht
    · rintro hs ⟨⟩
      exact hg job hj st hst ht hne
  · refine (hm.copied n hf hv a ha).imp_right fun hc => ?_
    exact hc.set hjob (List.Subset.refl _) rfl fun ht r hr ho =>
      ServerNode.carries_of_set hjob rfl ht hr ho

/-- The first owner has the entry when its scan passes the database, or the servers that are new
to it already have it. -/
theorem Inv.scan (hv : valueMetaSize ≤ val.length) (h : s.Inv hash key val) {k : ℕ}
    {now : ClockTime} (hs : step hash s (.scan n k now) = some t) : t.Inv hash key val := by
  obtain ⟨job, hj, hs⟩ := Option.bind_eq_some_iff.1 hs
  split_ifs at hs with hr
  obtain ⟨r, hscan, rfl⟩ := Option.map_eq_some_iff.1 hs
  have hr : job.records = none := by simpa using hr
  obtain ⟨task, htask, hjob⟩ := scanning_eq hj
  have hmem := List.mem_of_getElem? hjob
  refine h.update (n := n) ⟨rfl, rfl, rfl, rfl, rfl, rfl⟩ (by rfl)
    ((h.nodes n).scan htask hjob hscan) (scan_keeps hv hscan) (fun r hr => .inl hr)
    (fun st hst hne job' hj' ht => ?_) fun st hst hm hf hvis a ha => ?_
  · rcases List.mem_or_eq_of_mem_set hj' with hj' | rfl
    · exact (h.last st hst).source hne n job' hj' ht
    · exact (h.last st hst).source hne n job hmem ht
  · rcases List.mem_cons.1 hvis with ht | hvis
    · have hne := Start.ne_of_mem_newbies ha
      cases he : s.ended with
      | true => exact .inl ((hm.done he).1 a (mem_newbies.1 ha).1)
      | false =>
        have hheld := (hm.held he).1 n (List.mem_of_head? hf)
        refine .inr (ServerNode.carries_of_set hjob rfl ht.symm rfl ?_)
        exact mem_scan hv hscan hheld (h.hs_of_time hst hne hmem ht.symm)
          (hm.source hne n job hmem ht.symm) hf ha
    · refine (hm.copied n hf hvis a ha).imp_right fun hc => ?_
      exact hc.set hjob (List.Subset.refl _) rfl fun _ r hr' => by simp [hr] at hr'

/-- A server that is to copy the entry does not skip its scan. -/
theorem Inv.skip (h : s.Inv hash key val) {k : ℕ} (hs : step hash s (.skip n k) = some t) :
    t.Inv hash key val := by
  obtain ⟨job, hj, hs⟩ := Option.bind_eq_some_iff.1 hs
  split_ifs at hs with hskip
  obtain ⟨-, hr, hskip⟩ := hskip
  obtain ⟨task, htask, hjob⟩ := scanning_eq hj
  have hmem := List.mem_of_getElem? hjob
  have h' : Inv hash key val
      (s.setSrv n { s.srv n with visited := job.hs.clocktime :: (s.srv n).visited }) := by
    refine h.update (n := n) ⟨rfl, rfl, rfl, rfl, rfl, rfl⟩ (by rfl) ((h.nodes n).visit hjob) id
      (fun r hr => .inl hr) (fun st hst hne => (h.last st hst).source hne n)
      fun st hst hm hf hvis a ha => ?_
    rcases List.mem_cons.1 hvis with ht | hvis
    · exfalso
      have hne := Start.ne_of_mem_newbies ha
      obtain ⟨src, hsrc, hskip⟩ := (Option.any_eq_true _ _).1 hskip
      rw [hm.source hne n job hmem ht.symm src hsrc, h.hs_of_time hst hne hmem ht.symm,
        Start.not_skips (List.mem_of_head? hf)] at hskip
      cases hskip
    · exact hm.copied n hf hvis a ha
  have hsrv := setSrv_self (s := s) (n := n)
    (x := { s.srv n with visited := job.hs.clocktime :: (s.srv n).visited })
  refine h'.copy_same (n := n) (a := .skip k) trivial (fun c hc => ?_) (fun c hc => ?_)
    (hsrv.symm ▸ hs)
  · refine (h'.nodes n).skip (k := k) (by rw [hsrv]; exact hjob) hr ?_ hc
    rw [hsrv]
    exact List.mem_cons_self
  · obtain ⟨task, -, rfl⟩ := Option.map_eq_some_iff.1 hc
    rfl

/-- A stream is stored at its receiver before its sender lets go of it. -/
theorem Inv.accept (hv : valueMetaSize ≤ val.length) (h : s.Inv hash key val) {a : Address}
    (hs : step hash s (.accept n a) = some t) : t.Inv hash key val := by
  obtain ⟨st, hst, hs⟩ := Option.bind_eq_some_iff.1 hs
  have hitems := ((h.nodes n).streams st
    ((h.nodes n).counts.offered.subset (List.mem_of_find?_eq_some hst))).2
  have hstore := foldl_submitMessage_holds st.items (h.nodes a).holds hitems
  have h' : Inv hash key val (s.setSrv a
      { s.srv a with storage := st.items.foldl submitMessage (s.srv a).storage }) :=
    h.update (n := a) ⟨rfl, rfl, rfl, rfl, rfl, rfl⟩ (by rfl) ((h.nodes a).store hstore)
      (fun hl => foldl_submitMessage_keeps hv st.items hl hitems) (fun r hr => .inl hr)
      (fun st' hst' hne => (h.last st' hst').source hne a)
      fun st' _ hm hf hvis b hb => hm.copied a hf hvis b hb
  have hholds : ∀ o ∈ st.items, o = ⟨a, key, val⟩ → holds (s.setSrv a
      { s.srv a with storage := st.items.foldl submitMessage (s.srv a).storage }) key a =
        some val := by
    rintro o ho rfl
    unfold holds
    rw [setSrv_self]
    exact foldl_submitMessage_takes hv st.items (h.nodes a).holds hitems ho
  obtain ⟨hcop, hjobs⟩ : ((s.setSrv a { s.srv a with
      storage := st.items.foldl submitMessage (s.srv a).storage }).srv n).copier =
        (s.srv n).copier ∧ ((s.setSrv a { s.srv a with
      storage := st.items.foldl submitMessage (s.srv a).storage }).srv n).jobs =
        (s.srv n).jobs := by
    unfold setSrv
    by_cases hna : n = a
    · subst hna
      simp
    · simp [hna]
  refine h'.copy (n := n) (a := .accept a) trivial (fun c hc => ?_) (fun job hj => ?_)
    (fun c u b hc hcar => ?_) hs
  · rw [← hjobs]
    exact (h'.nodes n).accept hc
  · exact ⟨job, hjobs ▸ hj, rfl, rfl⟩
  · rw [hcop] at hc
    obtain ⟨st', hst', rfl⟩ := Option.map_eq_some_iff.1 hc
    have he := Option.some.inj (hst.symm.trans hst')
    subst he
    rcases hcar with ⟨st₀, hst₀, hd, ht, ho⟩ | hcar
    · rw [hcop] at hst₀
      by_cases heq : st₀ = st
      · subst heq
        have hb : b = a := hd.symm.trans (by simpa using List.find?_some hst)
        subst hb
        exact .inl (hholds _ ho rfl)
      · exact .inr (.inl ⟨st₀, (List.mem_erase_of_ne heq).2 hst₀, hd, ht, ho⟩)
    · rw [hjobs] at hcar
      exact .inr (.inr hcar)

/-! ## Messages -/

theorem Inv.receive (h : s.Inv hash key val) {k : ℕ} (hs : step hash s (.receive k) = some t) :
    t.Inv hash key val := by
  have htold := h.told.receive hs
  obtain ⟨d, hd, rfl⟩ := Option.map_eq_some_iff.1 hs
  have hd := List.mem_of_getElem? hd
  have h' : Inv hash key val { s with wire := s.wire.eraseIdx k } := by
    refine ⟨⟨h.told.copying, fun d hd => h.told.wire d (List.mem_of_mem_eraseIdx hd),
      h.told.deletes⟩, h.nodes, h.times, fun d hd => h.wire d (List.mem_of_mem_eraseIdx hd),
      fun st hst => ?_⟩
    have hm := h.last st hst
    exact { hm with
      held := fun he => ⟨(hm.held he).1, (hm.held he).2.1,
        fun d hd => (hm.held he).2.2 d (List.mem_of_mem_eraseIdx hd)⟩
      done := fun he => ⟨(hm.done he).1, (hm.done he).2.1,
        fun d hd => (hm.done he).2.2 d (List.mem_of_mem_eraseIdx hd)⟩ }
  obtain ⟨n, msg⟩ := d
  cases msg with
  | hashSpaceSync wseed rseed c =>
    exact h'.update (n := n) (x := ServerNode.hashSpaceSync hash (s.srv n) wseed rseed)
      ⟨rfl, rfl, rfl, rfl, rfl, rfl⟩ rfl ((h.nodes n).setSpaces _ _) id (fun r hr => .inl hr)
      (fun st hst hne => (h.last st hst).source hne n)
      fun st _ hm hf hvis b hb => hm.copied n hf hvis b hb
  | replaceCopyStart hsseed c full =>
    obtain ⟨st₀, hst₀, rfl⟩ := h.wire _ hd hsseed c full rfl
    refine h'.update (n := n) ⟨rfl, rfl, rfl, rfl, rfl, rfl⟩ (by rfl) ((h.nodes n).submit hst₀) id
      (fun r hr => .inl hr) (fun st hst hne job hj ht => ?_) fun st _ hm hf hvis b hb => ?_
    · rcases List.mem_append.1 hj with hj | hj
      · exact (h.last st hst).source hne n job hj ht
      · rw [List.mem_singleton.1 hj]
        simp
    · refine (hm.copied n hf hvis b hb).imp_right fun hc => ?_
      rcases hc with hc | ⟨job, hj, hc⟩
      · exact .inl hc
      · exact .inr ⟨job, List.mem_append_left _ hj, hc⟩
  | replaceDeleteStart hsseed c =>
    refine ⟨htold, h'.nodes, h'.times, h'.wire, fun st hst => ?_⟩
    have hm := h'.last st hst
    refine { hm with held := fun he => ?_, done := fun he => ?_ }
    · have := ((h.last st hst).held he).2.2 _ hd
      cases this
    · refine ⟨(hm.done he).1, fun e he' => ?_, (hm.done he).2.2⟩
      rcases List.mem_append.1 he' with he' | he'
      · exact (hm.done he).2.1 e he'
      · rw [List.mem_singleton.1 he', ((h.last st hst).done he).2.2 _ hd hsseed c rfl]
        rfl

/-! ## The manager -/

theorem addressed_isDelete {r : Manager × List Out} {dests : List Address}
    (hb : Manager.Begins r dests) {d : Address × ServerMsg} (hd : d ∈ addressed r.2) :
    d.2.isDelete = false := by
  obtain ⟨dests, -, hmem⟩ := mem_addressed hd
  rcases hb.msgs _ hmem with hm | ⟨-, c, full, hm⟩
  · cases hmsg : d.2 with
    | replaceDeleteStart => simp [hmsg, ServerMsg.isSync] at hm
    | _ => rfl
  · simp only [] at hm
    rw [hm]
    rfl

theorem Inv.quietly (h : s.Inv hash key val) {r : Manager × List Out} (hq : s.mgr.Quietly r)
    (ht : Told hash { s with mgr := r.1, wire := s.wire ++ addressed r.2 }) :
    Inv hash key val { s with mgr := r.1, wire := s.wire ++ addressed r.2 } := by
  have hsync : ∀ d ∈ addressed r.2, d.2.isSync = true := fun d hd => by
    obtain ⟨dests, -, hmem⟩ := mem_addressed hd
    exact hq.msgs _ hmem
  refine ⟨ht, h.nodes, h.times, fun d hd seed c full he => ?_, fun st hst => ?_⟩
  · rcases List.mem_append.1 hd with hd | hd
    · exact h.wire d hd seed c full he
    · have := hsync d hd
      rw [he] at this
      cases this
  · have hm := h.last st hst
    refine { hm with
      held := fun he => ⟨(hm.held he).1, (hm.held he).2.1, fun d hd => ?_⟩
      done := fun he => ⟨(hm.done he).1, (hm.done he).2.1, fun d hd seed c hmsg => ?_⟩ }
    · rcases List.mem_append.1 hd with hd | hd
      · exact (hm.held he).2.2 d hd
      · have hs := hsync d hd
        cases hmsg : d.2 with
        | replaceDeleteStart => simp [hmsg, ServerMsg.isSync] at hs
        | _ => rfl
    · rcases List.mem_append.1 hd with hd | hd
      · exact (hm.done he).2.2 d hd seed c hmsg
      · have hs := hsync d hd
        rw [hmsg] at hs
        cases hs

/-- A prepared replace. Nothing that is under way is for its time. -/
theorem Inv.begins (h : s.Inv hash key val) {r : Manager × List Out} {dests : List Address}
    (hb : Manager.Begins r dests)
    (hp : s.Prepared hash key val ⟨r.1.whs.seed, r.1.rhs.seed, dests⟩)
    (ht : Told hash
      { s with
        mgr := r.1
        wire := s.wire ++ addressed r.2
        starts := ⟨r.1.whs.seed, r.1.rhs.seed, dests⟩ :: s.starts
        ended := false }) :
    Inv hash key val
      { s with
        mgr := r.1
        wire := s.wire ++ addressed r.2
        starts := ⟨r.1.whs.seed, r.1.rhs.seed, dests⟩ :: s.starts
        ended := false } := by
  obtain ⟨⟨hdel, hwire⟩, hfresh, hconn, hown, hheld, hass⟩ := hp
  have hmono : ∀ {P : Start → Prop}, (∃ st ∈ s.starts, P st) →
      ∃ st ∈ (⟨r.1.whs.seed, r.1.rhs.seed, dests⟩ :: s.starts : List Start), P st :=
    fun ⟨st, hst, hP⟩ => ⟨st, List.mem_cons_of_mem _ hst, hP⟩
  refine ⟨ht, fun n => (h.nodes n).mono fun _ => List.mem_cons_of_mem _,
    fun u hu => hmono (h.times u hu), fun d hd seed c full he => ?_, ?_⟩
  · rcases List.mem_append.1 hd with hd | hd
    · exact hmono (h.wire d hd seed c full he)
    · obtain ⟨dests', -, hmem⟩ := mem_addressed hd
      refine ⟨_, List.mem_cons_self, ?_⟩
      rcases hb.msgs _ hmem with hm | ⟨-, c', full', hm⟩
      · rw [he] at hm
        cases hm
      · rw [he] at hm
        cases hm
        rfl
  · rintro st ⟨⟩
    refine ⟨hown, hass, hconn, hfresh, fun hne n job hj ht => ?_, fun f hf hv a ha => ?_,
      fun f hf hr a ha => ?_, fun _ => ⟨hheld, hdel, fun d hd => ?_⟩, by simp⟩
    · obtain ⟨st', hst', he⟩ := (h.nodes n).spaces job hj
      rw [he] at ht
      exact absurd ht (hfresh hne st' hst')
    · obtain ⟨st', hst', he⟩ := (h.nodes f).times _ hv
      exact absurd he (hfresh (Start.ne_of_mem_newbies ha) st' hst')
    · obtain ⟨st', hst', he⟩ := h.times _ hr
      exact absurd he (hfresh (Start.ne_of_mem_newbies ha) st' hst')
    · exact (List.mem_append.1 hd).elim (hwire d) (addressed_isDelete hb)

theorem Inv.manager (h : s.Inv hash key val) {a : MgrAct}
    (hg : s.Careful hash key val (.manager a)) (hs : step hash s (.manager a) = some t) :
    t.Inv hash key val := by
  have htold := h.told.manager hs
  obtain ⟨r, hr, ⟨hq, rfl⟩ | ⟨dests, hb, rfl⟩⟩ := manager_step hs
  · exact h.quietly hq htold
  · exact h.begins hb (hg r hr _ hb.start) htold

/-- When the last server has reported, every server the entry is assigned to has it. -/
theorem Inv.holds_assigned (h : s.Inv hash key val) {r : Address × ClockTime}
    (hr : r ∈ s.reports) (hp : (s.mgr.copying.pop r.2 r.1).2 = true) {st : Start}
    (hst : st ∈ s.starts.head?) {a : Address} (ha : a ∈ st.assigned hash key) :
    s.holds key a = some val := by
  obtain ⟨he, st', hst', hrep⟩ := h.told.reported_of_pop hp
  have heq := Option.some.inj (hst.symm.trans hst')
  subst heq
  have hm := h.last st hst
  obtain ⟨f, hf⟩ : ∃ f, (st.owners hash key).head? = some f := ⟨_, List.head?_eq_some_head hm.owned⟩
  rcases Start.assigned_cases ha with ha | ha
  · exact (hm.held he).1 a ha
  · refine hm.moved f hf ?_ a ha
    have hdest := hm.connected f (Start.active_of_mem_owners (List.mem_of_head? hf))
    rcases List.mem_cons.1 (hrep f hdest) with hfr | hfr
    · refine .inl ?_
      unfold Start.time
      rw [hfr]
      exact hr
    · exact .inr hfr

theorem Inv.copyEnd (h : s.Inv hash key val) {k : ℕ} {c : UInt32} (hg : s.Matched (.copyEnd k c))
    (hs : step hash s (.copyEnd k c) = some t) : t.Inv hash key val := by
  have htold := h.told.copyEnd hg hs
  simp only [step] at hs
  split_ifs at hs with hfin
  have hfin := Bool.eq_false_of_not_eq_true hfin
  obtain ⟨r, hr, rfl⟩ := Option.map_eq_some_iff.1 hs
  have hmem := List.mem_of_getElem? hr
  have hsub : ∀ u, u ∈ s.reports.eraseIdx k ∨ u ∈ r :: s.reported →
      u ∈ s.reports ∨ u ∈ s.reported := by
    rintro u (hu | hu)
    · exact .inl (List.mem_of_mem_eraseIdx hu)
    · rcases List.mem_cons.1 hu with rfl | hu
      · exact .inl hmem
      · exact .inr hu
  rcases Manager.replaceCopyEnd_cases r.2 c r.1 s.mgr with ⟨-, -, hf, ho⟩ | ⟨hp, -, hf, ho⟩
  · have hwire : s.wire ++ addressed (s.mgr.replaceCopyEnd r.2 c r.1).2 = s.wire := by
      rw [ho]
      exact List.append_nil _
    have hend : (s.ended || (s.mgr.replaceCopyEnd r.2 c r.1).1.finishing) = s.ended := by
      rw [hf, hfin, Bool.or_false]
    refine ⟨htold, h.nodes, fun u hu => h.times u (hsub u hu), fun d hd => h.wire d (hwire ▸ hd),
      fun st hst => ?_⟩
    have hm := h.last st hst
    exact { hm with
      moved := fun f hf hr => hm.moved f hf (hsub _ hr)
      held := fun he => ⟨(hm.held (hend ▸ he)).1, (hm.held (hend ▸ he)).2.1,
        fun d hd => (hm.held (hend ▸ he)).2.2 d (hwire ▸ hd)⟩
      done := fun he => ⟨(hm.done (hend ▸ he)).1, (hm.done (hend ▸ he)).2.1,
        fun d hd => (hm.done (hend ▸ he)).2.2 d (hwire ▸ hd)⟩ }
  · obtain ⟨he, -⟩ := h.told.reported_of_pop hp
    have hnew : ∀ d ∈ addressed (s.mgr.replaceCopyEnd r.2 c r.1).2,
        ∃ c', d.2 = .replaceDeleteStart s.mgr.whs.seed c' := fun d hd => by
      obtain ⟨dests, -, hd⟩ := mem_addressed hd
      exact ho _ hd
    refine ⟨htold, h.nodes, fun u hu => h.times u (hsub u hu), fun d hd seed c' full hmsg => ?_,
      fun st hst => ?_⟩
    · rcases List.mem_append.1 hd with hd | hd
      · exact h.wire d hd seed c' full hmsg
      · obtain ⟨c'', hd⟩ := hnew d hd
        rw [hmsg] at hd
        cases hd
    · have hm := h.last st hst
      obtain ⟨-, hdel, hwire⟩ := hm.held he
      refine { hm with
        moved := fun f hf hr => hm.moved f hf (hsub _ hr)
        held := fun hend => by simp [hf] at hend
        done := fun _ => ⟨fun a ha => h.holds_assigned hmem hp hst ha, ?_, ?_⟩ }
      · intro d hd
        simp only [hdel] at hd
        exact absurd hd List.not_mem_nil
      · intro d hd seed c' hmsg
        rcases List.mem_append.1 hd with hd | hd
        · have := hwire d hd
          rw [hmsg] at this
          cases this
        · obtain ⟨c'', hd⟩ := hnew d hd
          rw [hmsg] at hd
          cases hd
          exact hg r hr hp st hst

/-! ## The delete phase -/

/-- A delete task runs in the delete phase of the last replace. -/
theorem Inv.deleting (h : s.Inv hash key val) {k : ℕ} {now : ClockTime}
    (hg : s.Matched (.delete k now)) {d : Address × HashSpace} (hd : s.deletes[k]? = some d) :
    ∃ st ∈ s.starts.head?, s.ended = true ∧ (s.srv d.1).whs = st.dst hash := by
  have hmem := List.mem_of_getElem? hd
  obtain ⟨st₀, hst₀, -⟩ := h.told.deletes d hmem
  obtain ⟨st, hst⟩ : ∃ st, s.starts.head? = some st :=
    ⟨_, List.head?_eq_some_head (List.ne_nil_of_mem hst₀)⟩
  have hm := h.last st hst
  have he : s.ended = true := by
    by_contra he
    rw [(hm.held (Bool.eq_false_of_not_eq_true he)).2.1] at hmem
    exact List.not_mem_nil hmem
  exact ⟨st, hst, he, (hg d hd).trans ((hm.done he).2.1 d hmem)⟩

theorem Inv.delete (hv : valueMetaSize ≤ val.length) (h : s.Inv hash key val) {k : ℕ}
    {now : ClockTime} (hg : s.Matched (.delete k now))
    (hs : step hash s (.delete k now) = some t) : t.Inv hash key val := by
  have htold := step_told h.told hg hs
  obtain ⟨d, hd, rfl⟩ := Option.map_eq_some_iff.1 hs
  obtain ⟨st, hst, he, hwhs⟩ := h.deleting hg hd
  have hm := h.last st hst
  have hsrv : ∀ n, Function.update s.srv d.1 { s.srv d.1 with
      rhs := (s.srv d.1).whs
      storage := replaceDelete d.1 (s.srv d.1).whs now (s.srv d.1).storage } n =
      { s.srv n with
        rhs := if n = d.1 then (s.srv n).whs else (s.srv n).rhs
        storage := if n = d.1 then replaceDelete n (s.srv n).whs now (s.srv n).storage
          else (s.srv n).storage } := by
    intro n
    by_cases hn : n = d.1
    · rw [hn, Function.update_self, if_pos rfl, if_pos rfl]
    · rw [Function.update_of_ne hn, if_neg hn, if_neg hn]
  have keeps : ∀ a ∈ st.assigned hash key, s.holds key a = some val →
      (Function.update s.srv d.1 { s.srv d.1 with
        rhs := (s.srv d.1).whs
        storage := replaceDelete d.1 (s.srv d.1).whs now (s.srv d.1).storage } a).storage.db.lookup
          key = some val := by
    intro a ha hl
    rw [hsrv]
    simp only []
    split_ifs with had
    · subst had
      exact replaceDelete_keeps hv hl (hwhs ▸ ha)
    · exact hl
  refine ⟨htold, fun n => ?_, h.times, h.wire, fun st' hst' => ?_⟩
  · simp only [setSrv, hsrv]
    refine { h.nodes n with holds := ?_ }
    simp only []
    split_ifs
    · exact replaceDelete_holds (h.nodes n).holds
    · exact (h.nodes n).holds
  · have heq := Option.some.inj (hst.symm.trans hst')
    subst heq
    obtain ⟨hdone, hdel, hwire⟩ := hm.done he
    have hnew : ∀ a ∈ st.newbies hash key, s.holds key a = some val := fun a ha =>
      hdone a (mem_newbies.1 ha).1
    refine ⟨hm.owned, hm.assigned, hm.connected, hm.fresh, fun hne n job hj => ?_,
      fun f hf hvis a ha => .inl (keeps a (mem_newbies.1 ha).1 (hnew a ha)),
      fun f hf hr a ha => keeps a (mem_newbies.1 ha).1 (hnew a ha), fun hend => ?_, fun _ => ?_⟩
    · simp only [setSrv, hsrv] at hj
      exact hm.source hne n job hj
    · exact absurd (he.symm.trans hend) (by decide)
    · exact ⟨fun a ha => keeps a ha (hdone a ha),
        fun e he => hdel e (List.mem_of_mem_eraseIdx he), hwire⟩

theorem step_inv {a : Act} (hv : valueMetaSize ≤ val.length) (h : s.Inv hash key val)
    (hg : s.Careful hash key val a) (hs : step hash s a = some t) : t.Inv hash key val := by
  cases a with
  | manager b => exact h.manager hg hs
  | copyEnd k c => exact h.copyEnd hg hs
  | receive k => exact h.receive hs
  | begin n k => exact h.begin hg hs
  | switch n k => exact h.switch hg hs
  | scan n k now => exact h.scan hv hs
  | skip n k => exact h.skip hs
  | offer n k m => exact h.offer hs
  | resume n k => exact h.resume hs
  | scanEnd n k => exact h.scanEnd hs
  | finish n k => exact h.finish hs
  | accept n a => exact h.accept hv hs
  | pop n k => exact h.pop hs
  | timeout n a => exact h.timeout hs
  | delete k now => exact h.delete hv hg hs

section Run

variable {mgr : Manager} {whs rhs : Address → HashSpace} {storage : Address → Storage}
  {as : List Act}

theorem init_inv (hm : mgr.copying.remainder = []) (hst : ∀ n, (storage n).Holds key val) :
    (init mgr whs rhs storage).Inv hash key val := by
  refine ⟨init_told hm, fun n => ⟨⟨List.Subperm.refl _, .inl rfl⟩, .nil, ?_, ?_, ?_, ?_, ?_, hst n⟩,
    ?_, ?_, ?_⟩
  all_goals simp [init, Copier.init]

/-- A delete task that takes an entry from its server leaves it on a server that is active in the
hash space it goes by. -/
def KeepsCopy (s t : ReplaceNet) (n : Address) (key val : Bytes) : Prop :=
  s.holds key n = some val → t.holds key n ≠ some val →
    ∃ m ∈ (s.srv n).whs.getActiveNodes, t.holds key m = some val

/-- A delete task goes by a hash space whose copy all have reported, if the delete phase is that of
the copy phase; and it takes no last copy of an entry whose replaces start and copy with care. -/
theorem delete_reported_keepsCopy (hm : mgr.copying.remainder = [])
    (hrun : Machine.Run (step hash) Matched (init mgr whs rhs storage) as s) {k : ℕ}
    {now : ClockTime} (hg : s.Matched (.delete k now)) {d : Address × HashSpace}
    (hd : s.deletes[k]? = some d) (hs : step hash s (.delete k now) = some t) :
    s.CopyReported hash (s.srv d.1).whs ∧
      ∀ key val, valueMetaSize ≤ val.length → (∀ n, (storage n).Holds key val) →
        Machine.Run (step hash) (Careful hash key val) (init mgr whs rhs storage) as s →
        s.KeepsCopy t d.1 key val := by
  have htold : s.Told hash := hrun.inv (fun _ _ _ => step_told) (init_told hm)
  refine ⟨htold.delete hg hd, fun key val hv hst hrun' hl hnl => ?_⟩
  have h : s.Inv hash key val :=
    hrun'.inv (fun _ _ _ h hg hs => step_inv hv h hg hs) (init_inv hm hst)
  obtain ⟨st, hst, he, hwhs⟩ := h.deleting hg hd
  obtain ⟨m, hmem⟩ := List.exists_mem_of_ne_nil _ (h.last st hst).assigned
  rw [hwhs]
  refine ⟨m, HashSpace.mem_getActiveNodes_of_activeAssigned hmem, ?_⟩
  have ht := h.delete hv hg hs
  obtain ⟨d', -, rfl⟩ := Option.map_eq_some_iff.1 hs
  exact ((ht.last st hst).done he).1 m hmem

end Run

instance (s t : ReplaceNet) (n : Address) (key val : Bytes) : Decidable (s.KeepsCopy t n key val) :=
  inferInstanceAs (Decidable (_ → _ → ∃ m ∈ _, _))

/-! In one run an entry of two servers moves on: the first server is detached, a third one gets its
copy, and the first one deletes its own. In the other a server has not run its first delete task
when three more come, and the task runs as soon as the copy to these has begun: it goes by their
hash space, which assigns the entry to them alone, and no copy is left. -/

section Sample

open Sample

/-- The storages of servers of which these have the entry. -/
def entryStores (ns : List UInt8) (a : Address) : Storage :=
  ⟨if a ∈ ns.map svr then AList.insert entryKey entryVal ∅ else ∅, [], 0, 100, 1000⟩

theorem holds_entryStores (ns : List UInt8) (a : Address) :
    (entryStores ns a).Holds entryKey entryVal := by
  intro v hv
  unfold entryStores at hv
  simp only [] at hv
  split_ifs at hv
  · rw [AList.lookup_insert] at hv
    exact .inl (Option.some.inj hv).symm
  · simp at hv

def moveSrc : HashSpace := .ofSeed zeroHash (seedOf [1, 2] (.mk' 1 1000))

def moveMgr : Manager :=
  { Manager.init (Sample.mgr 1) ⟨[]⟩ ⟨3, 1000⟩ false with
    whs := .ofSeed zeroHash (seedOf [2, 3] (.mk' 2 1000))
    rhs := moveSrc
    nodes := [svr 1, svr 2, svr 3] }

def moveStart : ReplaceNet := init moveMgr (fun _ => moveSrc) (fun _ => moveSrc) (entryStores [1, 2])

def moveRun : List Act :=
  [.manager (.startReplace false), .receive 0, .receive 0, .receive 0,
    .begin (svr 1) 0, .switch (svr 1) 0, .skip (svr 1) 0, .finish (svr 1) 0,
    .begin (svr 2) 0, .switch (svr 2) 0, .scan (svr 2) 0 (.mk' 4 1000), .scanEnd (svr 2) 0,
    .finish (svr 2) 0,
    .begin (svr 3) 0, .switch (svr 3) 0, .scan (svr 3) 0 (.mk' 4 1000), .scanEnd (svr 3) 0,
    .finish (svr 3) 0,
    .accept (svr 2) (svr 3), .pop (svr 2) 0, .copyEnd 0 0, .copyEnd 0 0, .copyEnd 0 0, .receive 0]

theorem moveRun_deletes :
    ((Machine.execIf (step zeroHash) (Careful zeroHash entryKey entryVal) moveStart moveRun).any
      fun s => (step zeroHash s (.delete 0 (.mk' 5 1000))).any fun t =>
        s.deletes.head?.map (·.1) = some (svr 1) ∧ s.Matched (.delete 0 (.mk' 5 1000)) ∧
          s.holds entryKey (svr 1) = some entryVal ∧ t.holds entryKey (svr 1) = none) = true := by
  decide +kernel

theorem moveRun_keepsCopy : ∃ s t,
    Machine.Run (step zeroHash) (Careful zeroHash entryKey entryVal) moveStart moveRun s ∧
      step zeroHash s (.delete 0 (.mk' 5 1000)) = some t ∧
      s.holds entryKey (svr 1) = some entryVal ∧ t.holds entryKey (svr 1) = none ∧
      s.CopyReported zeroHash (s.srv (svr 1)).whs ∧
      s.KeepsCopy t (svr 1) entryKey entryVal := by
  obtain ⟨s, hs, h⟩ := (Option.any_eq_true _ _).1 moveRun_deletes
  obtain ⟨t, ht, h⟩ := (Option.any_eq_true _ _).1 h
  obtain ⟨hd, hg, hl, hl'⟩ := of_decide_eq_true h
  obtain ⟨d, hd, hn⟩ := Option.map_eq_some_iff.1 hd
  have hrun := Machine.execIf_run hs
  have hsafe := delete_reported_keepsCopy (by rfl) (hrun.mono fun _ _ => Careful.matched) hg
    (by rwa [← List.head?_eq_getElem?]) ht
  rw [hn] at hsafe
  exact ⟨s, t, hrun, ht, hl, hl', hsafe.1,
    hsafe.2 _ _ (by decide) (holds_entryStores _) hrun⟩

/-- A hash that puts the other servers' first virtual nodes before all of the first server's. -/
def othersFirst : Bytes → UInt64 := fun b => if b.length = 6 ∧ b ≠ (svr 1).dump then 0 else 1

def lateStart : ReplaceNet :=
  init (.init (Sample.mgr 1) ⟨[]⟩ ⟨1, 1000⟩ false) (fun _ => .init) (fun _ => .init) (entryStores [1])

def lateRun : List Act :=
  [.manager (.connect (svr 1)), .manager (.attach true), .receive 0, .begin (svr 1) 0,
    .switch (svr 1) 0, .skip (svr 1) 0, .finish (svr 1) 0, .copyEnd 0 0, .receive 0,
    .manager .publish, .manager (.connect (svr 2)), .manager (.connect (svr 3)),
    .manager (.connect (svr 4)), .manager (.attach true), .receive 0, .begin (svr 1) 0,
    .switch (svr 1) 0]

theorem lateRun_deletes : ((Machine.exec (step othersFirst) lateStart lateRun).any fun s =>
    (step othersFirst s (.delete 0 (.mk' 6 1000))).any fun t =>
      s.deletes.head?.map (·.1) = some (svr 1) ∧
        (∀ st ∈ s.starts, (s.srv (svr 1)).whs.seed = st.wseed → ¬ s.Reported st) ∧
        ¬ s.KeepsCopy t (svr 1) entryKey entryVal) = true := by
  decide +kernel

theorem not_keepsCopy_lateRun : ∃ s t d,
    Machine.Run (step othersFirst) Machine.Free lateStart lateRun s ∧
      s.deletes[0]? = some d ∧ step othersFirst s (.delete 0 (.mk' 6 1000)) = some t ∧
      ¬ s.CopyReported othersFirst (s.srv d.1).whs ∧ ¬ s.KeepsCopy t d.1 entryKey entryVal := by
  obtain ⟨s, hs, h⟩ := (Option.any_eq_true _ _).1 lateRun_deletes
  obtain ⟨t, ht, h⟩ := (Option.any_eq_true _ _).1 h
  obtain ⟨hd, hrep, hlost⟩ := of_decide_eq_true h
  obtain ⟨d, hd, hn⟩ := Option.map_eq_some_iff.1 hd
  refine ⟨s, t, d, Machine.exec_run hs, by rwa [← List.head?_eq_getElem?], ht, ?_, hn ▸ hlost⟩
  rintro ⟨st, hst, he, hall⟩
  rw [hn] at he
  exact hrep st hst (congrArg HashSpace.seed he) hall

end Sample

end ReplaceNet

end Kumofs
