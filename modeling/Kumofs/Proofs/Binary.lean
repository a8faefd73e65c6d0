import Kumofs.Gate.Binary

/-!
# The order of the binary gate's responses

The queue holds what was requested after the last response that was written, each entry filled or
not as its response is there, and its front is not filled. So the output is at every time the
responses of the requests up to the first that has none.
-/

namespace Kumofs.Gate.Binary

open Machine

variable {ε : Type} [DecidableEq ε] {x x' : Exchange ε}

/-- The element of an entry. -/
def Exchange.element (x : Exchange ε) (e : ε) : Element ε :=
  match x.response e with
  | some vec => ⟨none, vec⟩
  | none => ⟨some e, []⟩

/-- What `writev` is called with for responses. -/
def writes (vecs : List (List Bytes)) : List (List Bytes) := vecs.filter (0 < ·.length)

theorem flatten_writes : ∀ vecs : List (List Bytes), (writes vecs).flatten = vecs.flatten
  | [] => rfl
  | v :: vecs => by
    have ih := flatten_writes vecs
    unfold writes at ih ⊢
    cases v with
    | nil => simpa using ih
    | cons b bs => simpa using ih

/-- The queue for the requests `rest`, of which the first has no response. -/
structure Waits (x : Exchange ε) (rest : List ε) : Prop where
  front : ∀ e, rest.head? = some e → x.response e = none
  queue : x.queue.queue = rest.map x.element

/-- Those before them have been written. -/
structure Ordered (x : Exchange ε) : Prop where
  nodup : x.requests.Nodup
  requested : ∀ e, x.response e ≠ none → e ∈ x.requests
  split : ∃ done rest, x.requests = done ++ rest ∧ (∀ e ∈ done, x.response e ≠ none) ∧
    Waits x rest ∧ x.queue.output = writes (done.filterMap x.response)

/-! ## One call -/

theorem element_of_none {e : ε} (h : x.response e = none) : x.element e = ⟨some e, []⟩ := by
  unfold Exchange.element
  rw [h]

theorem element_of_some {e : ε} {vec : List Bytes} (h : x.response e = some vec) :
    x.element e = ⟨none, vec⟩ := by
  unfold Exchange.element
  rw [h]

/-- The loop writes up to the first entry that has no response, and leaves the rest. -/
theorem drain_elements (x : Exchange ε) : ∀ rest : List ε, ∃ done left, rest = done ++ left ∧
    (∀ e ∈ done, x.response e ≠ none) ∧ (∀ e, left.head? = some e → x.response e = none) ∧
    ResponseQueue.drain (rest.map x.element) =
      (left.map x.element, writes (done.filterMap x.response))
  | [] => ⟨[], [], rfl, by simp, by simp, rfl⟩
  | e :: rest => by
    cases he : x.response e with
    | none =>
      refine ⟨[], e :: rest, rfl, by simp, by simpa using he, ?_⟩
      rw [List.map_cons, element_of_none he]
      rfl
    | some vec =>
      obtain ⟨done, left, hsplit, hdone, hleft, hdrain⟩ := drain_elements x rest
      refine ⟨e :: done, left, by rw [hsplit]; rfl, ?_, hleft, ?_⟩
      · intro d hd
        rcases List.mem_cons.1 hd with rfl | hd
        · rw [he]
          simp
        · exact hdone d hd
      · rw [List.map_cons, element_of_some he, List.filterMap_cons, he]
        simp only [ResponseQueue.drain, hdrain, Element.isFilled, Option.isNone_none,
          Bool.not_true, Bool.false_eq_true, if_false, writes, List.filter_cons,
          decide_eq_true_eq]

/-- An entry that is reached is found in the queue, and filled there. -/
theorem fill_elements {e : ε} {vec : List Bytes} (he : x.response e = none)
    (hx' : ∀ d, x'.response d = if d = e then some vec else x.response d) :
    ∀ {rest : List ε}, rest.Nodup → e ∈ rest → ∃ i,
      (rest.map x.element).findIdx? (fun y => y.e == some e) = some i ∧
        (rest.map x.element).set i ⟨none, vec⟩ = rest.map x'.element
  | d :: rest, hd, hmem => by
    obtain ⟨hnot, hd⟩ := List.nodup_cons.1 hd
    have hother : ∀ d, d ≠ e → x'.element d = x.element d := by
      intro d hne
      unfold Exchange.element
      rw [hx', if_neg hne]
    by_cases hde : d = e
    · subst hde
      refine ⟨0, ?_, ?_⟩
      · rw [List.map_cons, element_of_none he, List.findIdx?_cons]
        simp
      · have hfill : x'.element d = ⟨none, vec⟩ :=
          element_of_some (by rw [hx', if_pos rfl])
        rw [List.map_cons, List.map_cons, List.set_cons_zero, hfill]
        congr 1
        apply List.map_congr_left
        intro a ha
        exact (hother a fun h => hnot (h ▸ ha)).symm
    · have hmem : e ∈ rest := (List.mem_cons.1 hmem).resolve_left (Ne.symm hde)
      obtain ⟨i, hi, hset⟩ := fill_elements he hx' hd hmem
      have hnone : ((x.element d).e == some e) = false := by
        unfold Exchange.element
        cases x.response d <;> simp [hde]
      refine ⟨i + 1, ?_, ?_⟩
      · rw [List.map_cons, List.findIdx?_cons, hnone, hi]
        rfl
      · rw [List.map_cons, List.set_cons_succ, hset, List.map_cons, hother d hde]

theorem pushEntry_ordered {e : ε} (h : Ordered x) (hnew : e ∉ x.requests) :
    Ordered { x with queue := x.queue.pushEntry e, requests := x.requests ++ [e] } := by
  obtain ⟨hd, hreq, done, rest, hsplit, hdone, hwait, hout⟩ := h
  have he : x.response e = none := by
    by_contra hne
    exact hnew (hreq e hne)
  refine ⟨?_, fun d hne => List.mem_append_left _ (hreq d hne), done, rest ++ [e], ?_, hdone,
    ⟨?_, ?_⟩, hout⟩
  · rw [← List.concat_eq_append]
    exact hd.concat hnew
  · rw [hsplit, List.append_assoc]
  · intro d hhead
    cases rest with
    | nil =>
      simp only [List.nil_append, List.head?_cons, Option.some.injEq] at hhead
      exact hhead ▸ he
    | cons a rest => exact hwait.front d hhead
  · have hq : (x.queue.pushEntry e).queue = rest.map x.element ++ [⟨some e, []⟩] := by
      unfold ResponseQueue.pushEntry
      rw [hwait.queue]
    rw [List.map_append, List.map_singleton]
    exact hq.trans (by rw [← element_of_none he]; rfl)

theorem reachedTrySend_ordered {e : ε} {vec : List Bytes} (h : Ordered x) (hmem : e ∈ x.requests)
    (he : x.response e = none) :
    Ordered { x with
      queue := x.queue.reachedTrySend e vec
      responses := (e, vec) :: x.responses } := by
  obtain ⟨hd, hreq, done, rest, hsplit, hdone, hwait, hout⟩ := h
  obtain ⟨x', hx'⟩ : ∃ x' : Exchange ε, x' = { x with
    queue := x.queue.reachedTrySend e vec
    responses := (e, vec) :: x.responses } := ⟨_, rfl⟩
  rw [← hx']
  have hresp : ∀ d, x'.response d = if d = e then some vec else x.response d := by
    intro d
    rw [hx']
    unfold Exchange.response
    rw [List.lookup_cons]
    by_cases hde : d = e
    · simp [hde]
    · have hbeq : (d == e) = false := by simpa using hde
      simp [hde, hbeq]
  have hrest : e ∈ rest := by
    rw [hsplit] at hmem
    exact (List.mem_append.1 hmem).resolve_left fun h => hdone e h he
  obtain ⟨i, hi, hset⟩ :=
    fill_elements he hresp ((List.nodup_append.1 (hsplit ▸ hd)).2.1) hrest
  obtain ⟨sent, left, hleft, hsent, hfront, hdrain⟩ := drain_elements x' rest
  have hq : x'.queue = ⟨left.map x'.element, x.queue.output ++ writes (sent.filterMap x'.response)⟩ := by
    have hqueue : x'.queue = x.queue.reachedTrySend e vec := by rw [hx']
    rw [hqueue, ResponseQueue.reachedTrySend, hwait.queue, hi]
    simp only [hset, hdrain]
  have hkept : ∀ d ∈ done, x'.response d = x.response d := by
    intro d hd
    rw [hresp, if_neg]
    rintro rfl
    exact hdone d hd he
  refine ⟨by rw [hx']; exact hd, ?_, done ++ sent, left, ?_, ?_, ⟨hfront, by rw [hq]⟩, ?_⟩
  · intro d hne
    rw [hresp] at hne
    split_ifs at hne with hde
    · rw [hx', hde]
      exact hmem
    · rw [hx']
      exact hreq d hne
  · rw [hx', List.append_assoc, ← hleft]
    exact hsplit
  · intro d hmem
    rcases List.mem_append.1 hmem with hmem | hmem
    · rw [hkept d hmem]
      exact hdone d hmem
    · exact hsent d hmem
  · have hmap : done.filterMap x'.response = done.filterMap x.response :=
      List.filterMap_congr hkept
    rw [hq, hout, List.filterMap_append, hmap]
    unfold writes
    rw [List.filter_append]

theorem step_ordered {c : Call ε} (h : Ordered x) (hs : x.step c = some x') : Ordered x' := by
  cases c with
  | pushEntry e =>
    simp only [Exchange.step] at hs
    split_ifs at hs with hnew
    cases hs
    exact pushEntry_ordered h hnew
  | reachedTrySend e vec =>
    simp only [Exchange.step] at hs
    split_ifs at hs with hok
    cases hs
    exact reachedTrySend_ordered h hok.1 hok.2

/-! ## Every sequence of calls -/

theorem completed_eq {done rest : List ε} (hsplit : x.requests = done ++ rest)
    (hdone : ∀ e ∈ done, x.response e ≠ none)
    (hfront : ∀ e, rest.head? = some e → x.response e = none) :
    x.completed = done.filterMap x.response := by
  have hall : ∀ v ∈ done.map x.response, v.isSome = true := by
    intro v hv
    obtain ⟨e, he, rfl⟩ := List.mem_map.1 hv
    exact Option.isSome_iff_ne_none.2 (hdone e he)
  have hstop : (rest.map x.response).takeWhile (·.isSome) = [] := by
    cases rest with
    | nil => rfl
    | cons e rest => simp [hfront e rfl]
  unfold Exchange.completed
  rw [hsplit, List.map_append, List.takeWhile_append_of_pos hall, hstop, List.append_nil,
    List.filterMap_map]
  rfl

theorem init_ordered : Ordered (.init : Exchange ε) :=
  ⟨List.nodup_nil, fun _ h => absurd rfl h, [], [], rfl, by simp, ⟨by simp, rfl⟩, rfl⟩

theorem Ordered.output (h : Ordered x) :
    x.queue.output = x.completed.filter (0 < ·.length) ∧
      x.queue.output.flatten.flatten = x.completed.flatten.flatten ∧
      ∀ y, x.queue.queue.head? = some y → y.isFilled = false := by
  obtain ⟨-, -, done, rest, hsplit, hdone, hwait, hout⟩ := h
  have hcompleted := completed_eq hsplit hdone hwait.front
  refine ⟨by rw [hout, hcompleted]; rfl, ?_, ?_⟩
  · rw [hout, flatten_writes, hcompleted]
  · intro y hy
    rw [hwait.queue, List.head?_map] at hy
    obtain ⟨e, he, rfl⟩ := Option.map_eq_some_iff.1 hy
    rw [element_of_none (hwait.front e he)]
    rfl

/-- At every time the output is the responses in the order of the requests up to the first that is
not there, each written once, and the front of the queue waits for its response. -/
theorem output_in_order {cs : List (Call ε)} (hrun : Run Exchange.step Free .init cs x) :
    x.requests.Nodup ∧ x.queue.output = x.completed.filter (0 < ·.length) ∧
      x.queue.output.flatten.flatten = x.completed.flatten.flatten ∧
      ∀ y, x.queue.queue.head? = some y → y.isFilled = false := by
  have hord := hrun.inv (fun _ _ _ h _ hs => step_ordered h hs) init_ordered
  exact ⟨hord.nodup, hord.output⟩

/-- The second of three responses comes first and waits for the first, which is quiet; the third is
not there. -/
theorem output_in_order_three : ∃ x : Exchange ℕ, Run Exchange.step Free .init
      [.pushEntry 1, .pushEntry 2, .pushEntry 3, .reachedTrySend 2 [[50]], .reachedTrySend 1 []] x ∧
    x.completed = [[], [[50]]] ∧ x.queue.output.flatten.flatten = [50] ∧
      ∀ y, x.queue.queue.head? = some y → y.isFilled = false := by
  obtain ⟨x, hrun, hcompleted⟩ : ∃ x : Exchange ℕ, Run Exchange.step Free .init
      [.pushEntry 1, .pushEntry 2, .pushEntry 3, .reachedTrySend 2 [[50]],
        .reachedTrySend 1 []] x ∧ x.completed = [[], [[50]]] :=
    ⟨_, .cons trivial rfl (.cons trivial rfl (.cons trivial rfl (.cons trivial rfl
      (.cons trivial rfl (.nil _))))), rfl⟩
  obtain ⟨-, -, hbytes, hfront⟩ := output_in_order hrun
  exact ⟨x, hrun, hcompleted, by rw [hbytes, hcompleted]; rfl, hfront⟩

/-! ## A connection -/

theorem conn_ordered {o : Options} {c c' : Conn} {e : Event} (h : Ordered c.exchange)
    (hs : c.step o e = some c') : Ordered c'.exchange := by
  cases e with
  | request r =>
    simp only [Conn.step, Option.bind_eq_bind, Option.bind_eq_some_iff] at hs
    obtain ⟨⟨e, asks⟩, -, x, hx, hs⟩ := hs
    have hpush := step_ordered h hx
    cases asks with
    | inl req =>
      cases hs
      exact hpush
    | inr vec =>
      simp only [Option.bind_eq_some_iff, Option.some.injEq] at hs
      obtain ⟨x', hx', rfl⟩ := hs
      exact step_ordered hpush hx'
  | complete n res =>
    simp only [Conn.step, Option.bind_eq_bind, Option.bind_eq_some_iff, Option.some.injEq] at hs
    obtain ⟨e, -, vec, -, x, hx, rfl⟩ := hs
    exact step_ordered h hx
  | updateSystemTime t =>
    cases hs
    exact h

/-- The gate answers the requests of a connection in order, whatever the gateway does. -/
theorem conn_output_in_order {o : Options} {t : UInt32} {es : List Event} {c : Conn}
    (hrun : Run (Conn.step o) Free (.init t) es c) :
    c.exchange.queue.output.flatten.flatten = c.exchange.completed.flatten.flatten := by
  have hord := hrun.inv (I := fun c => Ordered c.exchange) (fun _ _ _ h _ hs => conn_ordered h hs)
    init_ordered
  exact hord.output.2.1

end Kumofs.Gate.Binary
