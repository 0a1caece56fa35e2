/-
  File:      InpLabs/Udp/Traffic.lean
  Subject:   The server under arbitrary datagrams: which of them it survives.

  * `traffic`: the runs of the server alone, with any packets and time-outs;
  * `Handles`: all indices of an event are inside their arrays, and a packet that does not fit what
    is recorded changes nothing;
  * `Tame`, `handles_iff`: exactly when that is so: the state of the server may be one of any
    number of packets for each file;
  * `index_safety`: and so after every run of tame events;
  * `index_unsafe`: a packet of file 1000, and an ack for a file of two packets.
-/
import InpLabs.Lib.Lts
import InpLabs.Udp.Indices

namespace InpLabs.Udp

open InpLabs.Lib Traced

/-! ## 1. Events -/

/-- What `recvfrom` returns with. -/
inductive Event where
  | packet (p : Packet)
  | timeout

/-- The runs of the server alone. -/
def traffic : Lts Server Event where
  init s := s = .new
  step s ev t :=
    s.pc ≠ .finishing ∧
      match ev with
      | .packet p => ∃ saved, s.onPacket p = .ok (t, saved)
      | .timeout => ∃ junk acks, s.onTimeout junk = (t, acks)

/-- The indices that are used until the next `recvfrom`. -/
def Server.indices (s : Server) : Event → List Access
  | .packet p =>
    (s.receiveT p).trace ++
      match s.receive p with
      | .ok (t, .leave, _) => t.leaveIndices
      | _ => []
  | .timeout =>
    match s.pc with
    | .inner => s.leaveIndices
    | _ => []

/-- The fields fit each other and what is recorded of the file. -/
def Packet.Consistent (p : Packet) (s : Server) (f : Fin numFiles) : Prop :=
  p.packetNumber.toNat < p.totalPackets.toNat ∧ p.length.toNat ≤ packetSize ∧
    (s.storedPacket f ≠ [] → p.totalPackets.toNat = (s.storedPacket f).length)

/-- Nothing is stored, and nothing is written. -/
structure Unchanged (s t : Server) (saved : List StoreFile) : Prop where
  storedPacket : t.storedPacket = s.storedPacket
  datas : t.datas = s.datas
  expanded : t.expanded = s.expanded
  fileSaved : t.fileSaved = s.fileSaved
  saved : saved = []

/-- An event is handled: its indices are inside, and a packet that is not consistent is ignored. -/
structure Server.Handles (s : Server) (ev : Event) : Prop where
  indices : ∀ a ∈ s.indices ev, a.Safe
  ignores : ∀ p, ev = .packet p →
    (∀ f : Fin numFiles, p.fileNumber.toNat = f → ¬ p.Consistent s f) →
      ∀ t saved, s.onPacket p = .ok (t, saved) → Unchanged s t saved

/-! ## 2. The condition -/

/-- What may arrive for a file: a consistent packet, any packet once the file is written, and any
packet for a slot that is set. -/
inductive Receivable (s : Server) (f : Fin numFiles) (p : Packet) : Prop where
  | consistent (h : p.Consistent s f)
  | written (he : s.expanded f = true) (hs : s.storedPacket f = [])
  | duplicate (hs : (s.storedPacket f)[p.packetNumber.toNat]? = some true)

/-- The packet ends the inner loop: its file is written already, or it is the last one missing. -/
def Ends (s : Server) (f : Fin numFiles) (p : Packet) : Prop :=
  (s.expanded f = true ∧ s.storedPacket f = []) ∨
    ((s.storedPacket f)[p.packetNumber.toNat]? ≠ some true ∧
      ∀ i < p.totalPackets.toNat, i ≠ p.packetNumber.toNat → (s.storedPacket f)[i]? = some true)

/-- The event is no trouble: a packet has a wrong checksum or is receivable, and when acks follow,
they fit all other files. -/
def Tame (s : Server) : Event → Prop
  | .packet p =>
    if p.checksum = p.calculatedChecksum then
      ∃ f : Fin numFiles, p.fileNumber.toNat = f ∧ Receivable s f p ∧
        (Ends s f p → ∀ g, g ≠ f → s.AckFits g)
    else ∀ g, s.AckFits g
  | .timeout => s.pc = .inner → ∀ g, s.AckFits g

/-! ## 3. One event -/

section Event

variable {n : Fin numFiles → Nat} {s t : Server} {f : Fin numFiles} {p : Packet}
  {saved : List StoreFile}

theorem leave_not_inner (s : Server) : s.leave.pc ≠ .inner := by
  rcases leave_pc s with hpc | hpc <;> rw [hpc] <;> decide

theorem leave_ackFits {g : Fin numFiles} : s.leave.AckFits g ↔ s.AckFits g := by
  obtain ⟨hslots, -, -, hsaved⟩ := leave_frame s
  unfold Server.AckFits
  rw [hslots, hsaved]

theorem leave_unchanged (s : Server) : Unchanged s s.leave [] := by
  obtain ⟨hslots, hd, he, hsaved⟩ := leave_frame s
  exact ⟨hslots, hd, he, hsaved, rfl⟩

/-- The indices of a packet whose outcome is known. -/
theorem indices_packet (h : s.onPacket p = .ok (t, saved))
    (hw : Window t.fileSaved t.startFile t.endFile t.pc) :
    (∀ a ∈ s.indices (.packet p), a.Safe) ↔ (t.pc ≠ .inner → ∀ g, t.AckFits g) := by
  unfold Server.onPacket at h
  rcases receiveT_spec s p with ⟨⟨u, next, saved'⟩, hr, hyields⟩ | ⟨⟨e, he⟩, -⟩
  · rw [hr] at h
    unfold Server.indices
    dsimp only
    rw [hr]
    have hsplit : ∀ l : List Access,
        (∀ a ∈ (s.receiveT p).trace ++ l, a.Safe) ↔ ∀ a ∈ l, a.Safe := by
      intro l
      refine ⟨fun h a ha => h a (List.mem_append_right _ ha), fun h a ha => ?_⟩
      exact (List.mem_append.mp ha).elim (hyields.all a) (h a)
    rw [hsplit]
    cases next with
    | leave =>
      obtain ⟨rfl, rfl⟩ := Prod.mk.inj (Except.ok.inj h)
      dsimp only
      rw [leaveIndices_safe hw]
      simp only [leave_ackFits, leave_not_inner, ne_eq, not_false_eq_true, forall_const]
    | again =>
      obtain ⟨rfl, rfl⟩ := Prod.mk.inj (Except.ok.inj h)
      refine iff_of_true (fun a ha => absurd ha List.not_mem_nil) fun hpc => absurd rfl hpc
  · rw [he] at h
    cases h

theorem onPacket_unique {t' : Server} {saved' : List StoreFile} (h : s.onPacket p = .ok (t, saved))
    (h' : s.onPacket p = .ok (t', saved')) : t = t' ∧ saved = saved' :=
  Prod.mk.inj (Except.ok.inj (h.symm.trans h'))

/-- A packet that changes nothing may be inconsistent. -/
theorem handles_of_unchanged (h : s.onPacket p = .ok (t, saved)) (hu : Unchanged s t saved)
    (hsafe : ∀ a ∈ s.indices (.packet p), a.Safe) : s.Handles (.packet p) := by
  refine ⟨hsafe, fun q hq _ t' saved' ht => ?_⟩
  cases hq
  obtain ⟨rfl, rfl⟩ := onPacket_unique h ht
  exact hu

/-- A fault is an index that is not inside. -/
theorem not_handles_of_error {e : Fault} (h : s.receive p = .error e) :
    ¬ s.Handles (.packet p) := by
  intro hs
  obtain ⟨r, hr⟩ := (receiveT_all s p).mp fun a ha => hs.indices a (List.mem_append_left _ ha)
  rw [h] at hr
  cases hr

/-- A file of which nothing is in the arrays may get any number of packets. -/
theorem Server.Ok.resize (hs : s.Ok n) (hnil : s.storedPacket f = []) (k : Nat) :
    s.Ok (Function.update n f k) := by
  refine ⟨fun g => ?_, hs.window⟩
  by_cases hg : g = f
  · subst hg
    cases hs.file g with
    | untouched he hv hslots hd => exact .untouched he hv hslots hd
    | written he hv hslots hd => exact .written he hv hslots hd
    | receiving he hv hslots hd hm =>
      rw [hnil] at hm
      cases hm
  · unfold Server.FileOk
    rw [Function.update_of_ne hg]
    exact hs.file g

/-- A consistent packet has a correct header for some number of packets. -/
theorem Packet.Consistent.header (hs : s.Ok n) (hf : p.fileNumber.toNat = f)
    (h : p.Consistent s f) : ∃ m, s.Ok m ∧ Header m f p := by
  obtain ⟨hlt, -, htotal⟩ := h
  by_cases hnil : s.storedPacket f = []
  · refine ⟨Function.update n f p.totalPackets.toNat, hs.resize hnil _, hf, ?_, ?_⟩
    · rw [Function.update_self]
    · rw [Function.update_self]
      exact hlt
  · cases hs.file f with
    | untouched he hv hslots hd => exact absurd hslots hnil
    | written he hv hslots hd => exact absurd hslots hnil
    | receiving he hv hslots hd hm =>
      have hn := htotal hnil
      rw [hslots] at hn
      exact ⟨n, hs, hf, hn, by omega⟩

/-- Of a written file nothing is in the arrays any more. -/
theorem Server.Ok.saved_of_nil (hs : s.Ok n) (he : s.expanded f = true)
    (hnil : s.storedPacket f = []) : s.fileSaved f.castSucc = true := by
  cases hs.file f with
  | untouched he' hv hslots hd => rw [he] at he'; cases he'
  | receiving he' hv hslots hd hm => rw [hnil] at hm; cases hm
  | written he' hv hslots hd => exact hv

theorem Server.Ok.unsaved_of_stored (hs : s.Ok n) {i : Nat}
    (h : (s.storedPacket f)[i]? = some true) : s.fileSaved f.castSucc = false := by
  cases hs.file f with
  | untouched he hv hslots hd => exact hv
  | receiving he hv hslots hd hm => exact hv
  | written he hv hslots hd => rw [hslots] at h; cases h

/-- An outcome leaves the inner loop exactly when the packet ends it. -/
theorem Outcome.leaves_iff (hs : s.Ok n) (hp : Header n f p) (h : Outcome s f p t saved) :
    t.pc ≠ .inner ↔ Ends s f p := by
  cases h with
  | known hv =>
    refine iff_of_true (leave_not_inner s) ?_
    cases hs.file f with
    | untouched he hv' hslots hd => rw [hv] at hv'; cases hv'
    | receiving he hv' hslots hd hm => rw [hv] at hv'; cases hv'
    | written he hv' hslots hd => exact .inl ⟨he, hslots⟩
  | again hv hslot =>
    refine iff_of_false (fun hpc => hpc rfl) fun hends => ?_
    rcases hends with ⟨-, hnil⟩ | ⟨hne, -⟩
    · rw [hnil] at hslot
      cases hslot
    · exact hne hslot
  | kept hmiss hl hm =>
    obtain ⟨hunsaved, hexp⟩ := expanded_of_new (hs.file f) hp hmiss
    refine iff_of_false (fun hpc => hpc rfl) fun hends => ?_
    rcases hends with ⟨he, hnil⟩ | ⟨-, hrest⟩
    · rw [hs.saved_of_nil he hnil] at hunsaved
      cases hunsaved
    · -- every slot would be set
      obtain ⟨i, hi, hget⟩ := List.mem_iff_getElem.mp hm
      have hlen : i < n f := by
        rw [fill_storedPacket, List.length_set, hexp.stored_length] at hi
        exact hi
      have hset : ((s.fill f p).storedPacket f)[i]? = some true := by
        rw [fill_stored hexp hp.number]
        by_cases hne : i = p.packetNumber.toNat
        · exact .inr hne
        · exact .inl (hrest i (by rw [hp.total]; exact hlen) hne)
      rw [List.getElem?_eq_getElem hi, hget] at hset
      cases hset
  | complete hmiss hl hall =>
    obtain ⟨hunsaved, hexp⟩ := expanded_of_new (hs.file f) hp hmiss
    refine iff_of_true (leave_not_inner _) (.inr ⟨fun hslot => hmiss (.inr hslot), ?_⟩)
    intro i hi hne
    have hlt : i < ((s.fill f p).storedPacket f).length := by
      rw [fill_storedPacket, List.length_set, hexp.stored_length, ← hp.total]
      exact hi
    have hset : ((s.fill f p).storedPacket f)[i]? = some true := by
      rw [List.getElem?_eq_getElem hlt, hall _ (List.getElem_mem hlt)]
    exact ((fill_stored hexp hp.number i).mp hset).resolve_right hne

theorem fill_ackFits (s : Server) (p : Packet) {g : Fin numFiles} (h : g ≠ f) :
    (s.fill f p).AckFits g ↔ s.AckFits g := by
  unfold Server.AckFits
  rw [(fill_of_ne s p h).1, (fill_frame s f p).1]

theorem save_ackFits (s : Server) {g : Fin numFiles} (h : g ≠ f) :
    (s.save f).AckFits g ↔ s.AckFits g := by
  have hne : g.castSucc ≠ f.castSucc := (Fin.castSucc_injective _).ne h
  unfold Server.AckFits Server.save
  simp only [Function.update_of_ne h, Function.update_of_ne hne]

/-- The ack for another file stays what it was. -/
theorem Outcome.ackFits (h : Outcome s f p t saved) {g : Fin numFiles} (hg : g ≠ f) :
    t.AckFits g ↔ s.AckFits g := by
  cases h with
  | known hv => exact leave_ackFits
  | again hv hslot => exact Iff.rfl
  | kept hmiss hl hm => exact fill_ackFits s p hg
  | complete hmiss hl hall =>
    rw [leave_ackFits, save_ackFits _ hg, fill_ackFits s p hg]

/-- When the inner loop is left, the file of the packet is saved. -/
theorem Outcome.ackFits_self (h : Outcome s f p t saved) (hpc : t.pc ≠ .inner) : t.AckFits f := by
  cases h with
  | known hv =>
    rw [leave_ackFits]
    intro hv'
    rw [hv] at hv'
    cases hv'
  | again hv hslot => exact absurd rfl hpc
  | kept hmiss hl hm => exact absurd rfl hpc
  | complete hmiss hl hall =>
    rw [leave_ackFits]
    intro hv
    exact absurd ((Function.update_self ..).symm.trans hv) (by decide)

/-- **A consistent packet** has an outcome; its indices are inside if the acks that follow fit. -/
theorem consistent_outcome (hs : s.Ok n) (hf : p.fileNumber.toNat = f)
    (hc : p.checksum = p.calculatedChecksum) (h : p.Consistent s f) :
    ∃ t saved m, s.onPacket p = .ok (t, saved) ∧ t.Ok m ∧
      ((t.pc ≠ .inner → ∀ g, t.AckFits g) ↔ (Ends s f p → ∀ g, g ≠ f → s.AckFits g)) := by
  obtain ⟨m, hsm, hp⟩ := h.header hs hf
  rcases onPacket_outcome (hsm.file f) hp hc with ⟨t, saved, hon, hout⟩ | ⟨-, -, hlen⟩
  · refine ⟨t, saved, m, hon, hout.ok hsm hp, ?_⟩
    have hleaves := hout.leaves_iff hsm hp
    refine ⟨fun hfit hends g hg => (hout.ackFits hg).mp (hfit (hleaves.mpr hends) g),
      fun hfit hpc g => ?_⟩
    by_cases hg : g = f
    · rw [hg]
      exact hout.ackFits_self hpc
    · exact (hout.ackFits hg).mpr (hfit (hleaves.mp hpc) g hg)
  · exact absurd h.2.1 (Nat.not_le.mpr hlen)

theorem file_unique {g : Fin numFiles} (hf : p.fileNumber.toNat = f) (hg : p.fileNumber.toNat = g) :
    g = f := Fin.ext (hg.symm.trans hf)

/-- With the vectors made and a slot to fill, a packet faults, or it is stored. -/
theorem receive_slot (hf : p.fileNumber.toNat = f) (hc : p.checksum = p.calculatedChecksum)
    (hne : (s.expand f p.totalPackets).storedPacket f ≠ [])
    (hslot : ((s.expand f p.totalPackets).storedPacket f)[p.packetNumber.toNat]? ≠ some true) :
    (∃ e, s.receive p = .error e) ∨
      ((((s.expand f p.totalPackets).storedPacket f)[p.packetNumber.toNat]? = some false ∧
        p.length.toNat ≤ packetSize) ∧
        s.receive p = .ok ((s.fill f p).saveIfComplete f)) := by
  have hempty : ((s.expand f p.totalPackets).storedPacket f).isEmpty = false := by simpa using hne
  rw [receive_eq hf hc, hempty, if_neg Bool.false_ne_true]
  unfold Server.store
  cases hget : ((s.expand f p.totalPackets).storedPacket f)[p.packetNumber.toNat]? with
  | none => exact .inl ⟨_, rfl⟩
  | some b =>
    cases b with
    | true => exact absurd hget hslot
    | false =>
      dsimp only
      split
      · exact .inl ⟨_, rfl⟩
      · split
        · exact .inl ⟨_, rfl⟩
        · rename_i hlen
          exact .inr ⟨⟨rfl, Nat.le_of_not_lt hlen⟩, rfl⟩

/-- The first packet of a file either fits, or faults, or leaves the file marked as expanded. -/
theorem not_handles_untouched (hf : p.fileNumber.toNat = f)
    (hc : p.checksum = p.calculatedChecksum) (he : s.expanded f = false)
    (hv : s.fileSaved f.castSucc = false) (hslots : s.storedPacket f = []) (hd : s.datas f = [])
    (h : ¬ p.Consistent s f) (hign : ∀ t saved, s.onPacket p = .ok (t, saved) →
      Unchanged s t saved) : ¬ s.Handles (.packet p) := by
  have hexp := expand_expanded (n := p.totalPackets.toNat) (.untouched he hv hslots hd) rfl hv
  by_cases hnil : (s.expand f p.totalPackets).storedPacket f = []
  · -- a file of no packets would count as written
    have hreceive : s.receive p = .ok (s.expand f p.totalPackets, .leave, []) := by
      rw [receive_eq hf hc, hnil]
      rfl
    have hon : s.onPacket p = .ok ((s.expand f p.totalPackets).leave, []) := by
      unfold Server.onPacket
      rw [hreceive]
      rfl
    have hsame := congrFun (hign _ _ hon).expanded f
    rw [(leave_frame _).2.2.1, hexp.expanded, he] at hsame
    cases hsame
  · have hslot : ((s.expand f p.totalPackets).storedPacket f)[p.packetNumber.toNat]? ≠
        some true := by
      rw [ne_eq, hexp.stored, hslots]
      exact fun hget => by cases hget
    rcases receive_slot hf hc hnil hslot with ⟨e, he'⟩ | ⟨⟨hget, hlen⟩, -⟩
    · exact not_handles_of_error he'
    · have hlt := (List.getElem?_eq_some_iff.mp hget).1
      rw [hexp.stored_length] at hlt
      exact absurd ⟨hlt, hlen, fun hne => absurd hslots hne⟩ h

/-- What is stored of a file after a packet: nothing any more, or its slots with one more set. -/
theorem proceed_storedPacket (hexp : s.expand f p.totalPackets = s) :
    (Server.proceed ((s.fill f p).saveIfComplete f)).1.storedPacket f = [] ∨
      (Server.proceed ((s.fill f p).saveIfComplete f)).1.storedPacket f =
        (s.storedPacket f).set p.packetNumber.toNat true := by
  unfold Server.saveIfComplete
  split
  · refine .inl ?_
    show ((s.fill f p).save f).leave.storedPacket f = []
    rw [(leave_frame _).1]
    exact Function.update_self ..
  · refine .inr ?_
    show (s.fill f p).storedPacket f = _
    rw [fill_storedPacket, hexp]

/-- A further packet of a file that is being received faults, or is stored. -/
theorem not_handles_receiving (hf : p.fileNumber.toNat = f)
    (hc : p.checksum = p.calculatedChecksum) (he : s.expanded f = true)
    (hne : s.storedPacket f ≠ []) (hslot : (s.storedPacket f)[p.packetNumber.toNat]? ≠ some true)
    (hign : ∀ t saved, s.onPacket p = .ok (t, saved) → Unchanged s t saved) :
    ¬ s.Handles (.packet p) := by
  have hexp := expand_of_expanded he p.totalPackets
  have hreceive := receive_slot (p := p) hf hc (hexp.symm ▸ hne) (hexp.symm ▸ hslot)
  rcases hreceive with ⟨e, he'⟩ | ⟨⟨hget, -⟩, hr⟩
  · exact not_handles_of_error he'
  · rw [hexp] at hget
    have hon : s.onPacket p = .ok (Server.proceed ((s.fill f p).saveIfComplete f)) := by
      unfold Server.onPacket
      rw [hr]
      rfl
    have hsame := congrFun (hign _ _ hon).storedPacket f
    rcases proceed_storedPacket (p := p) hexp with hnil | hset
    · exact absurd (hsame.symm.trans hnil) hne
    · have hlt := (List.getElem?_eq_some_iff.mp hget).1
      refine absurd ?_ hslot
      rw [hsame.symm.trans hset, List.getElem?_set_self hlt]

/-- **Any other packet** faults, or changes what is recorded. -/
theorem not_handles (hs : s.Ok n) (hf : p.fileNumber.toNat = f)
    (hc : p.checksum = p.calculatedChecksum) (h : ¬ Receivable s f p) :
    ¬ s.Handles (.packet p) := by
  intro hh
  have hcons : ¬ p.Consistent s f := fun hcons => h (.consistent hcons)
  have hinc : ∀ g : Fin numFiles, p.fileNumber.toNat = g → ¬ p.Consistent s g :=
    fun g hg => file_unique hf hg ▸ hcons
  have hign := hh.ignores p rfl hinc
  cases hs.file f with
  | written he hv hslots hd => exact h (.written he hslots)
  | untouched he hv hslots hd =>
    exact not_handles_untouched hf hc he hv hslots hd hcons hign hh
  | receiving he hv hslots hd hm =>
    have hne : s.storedPacket f ≠ [] := fun hnil => by rw [hnil] at hm; cases hm
    exact not_handles_receiving hf hc he hne (fun hget => h (.duplicate hget)) hign hh

/-- A packet that only ends the inner loop. -/
theorem handles_leave (hs : s.Ok n) (h : s.onPacket p = .ok (s.leave, [])) :
    s.Handles (.packet p) ↔ ∀ g, s.AckFits g := by
  have hindices := indices_packet h hs.leave.window
  simp only [leave_ackFits, leave_not_inner, ne_eq, not_false_eq_true, forall_const] at hindices
  exact ⟨fun hh => hindices.mp hh.indices,
    fun hfit => handles_of_unchanged h (leave_unchanged s) (hindices.mpr hfit)⟩

theorem handles_duplicate (hs : s.Ok n) (hf : p.fileNumber.toNat = f)
    (hc : p.checksum = p.calculatedChecksum)
    (hstored : (s.storedPacket f)[p.packetNumber.toNat]? = some true) :
    s.Handles (.packet p) := by
  have hon := onPacket_duplicate (hs.file f) hf hc hstored
  have hunsaved := hs.unsaved_of_stored hstored
  exact handles_of_unchanged hon ⟨rfl, rfl, rfl, rfl, rfl⟩
    ((indices_packet hon (hs.inner hunsaved)).mpr fun hpc => absurd rfl hpc)

theorem handles_consistent (hs : s.Ok n) (hf : p.fileNumber.toNat = f)
    (hc : p.checksum = p.calculatedChecksum) (h : p.Consistent s f) :
    s.Handles (.packet p) ↔ (Ends s f p → ∀ g, g ≠ f → s.AckFits g) := by
  obtain ⟨t, saved, m, hon, ht, hfit⟩ := consistent_outcome hs hf hc h
  have hindices := indices_packet hon ht.window
  rw [hfit] at hindices
  refine ⟨fun hh => hindices.mp hh.indices, fun hends => ⟨hindices.mpr hends, ?_⟩⟩
  intro q hq hinc
  cases hq
  exact absurd h (hinc f hf)

/-- A packet of a file of the array, with the right checksum. -/
theorem handles_packet (hs : s.Ok n) (hf : p.fileNumber.toNat = f)
    (hc : p.checksum = p.calculatedChecksum) :
    s.Handles (.packet p) ↔
      Receivable s f p ∧ (Ends s f p → ∀ g, g ≠ f → s.AckFits g) := by
  by_cases hrec : Receivable s f p
  · rw [and_iff_right hrec]
    cases hrec with
    | consistent h => exact handles_consistent hs hf hc h
    | written he hnil =>
      have hv := hs.saved_of_nil he hnil
      rw [handles_leave hs (onPacket_written (hs.file f) hf hc hv)]
      refine ⟨fun hfit _ g _ => hfit g, fun hfit g => ?_⟩
      by_cases hg : g = f
      · intro hv'
        rw [hg, hv] at hv'
        cases hv'
      · exact hfit (.inl ⟨he, hnil⟩) g hg
    | duplicate hstored =>
      refine iff_of_true (handles_duplicate hs hf hc hstored) fun hends => ?_
      rcases hends with ⟨-, hnil⟩ | ⟨hne, -⟩
      · rw [hnil] at hstored
        cases hstored
      · exact absurd hstored hne
  · exact iff_of_false (not_handles hs hf hc hrec) fun h => hrec h.1

theorem handles_timeout (hs : s.Ok n) :
    s.Handles .timeout ↔ (s.pc = .inner → ∀ g, s.AckFits g) := by
  have hindices : (∀ a ∈ s.indices .timeout, a.Safe) ↔ (s.pc = .inner → ∀ g, s.AckFits g) := by
    unfold Server.indices
    dsimp only
    cases hpc : s.pc with
    | inner =>
      rw [leaveIndices_safe hs.leave.window]
      exact ⟨fun h _ => h, fun h => h rfl⟩
    | outer => exact iff_of_true (fun a ha => absurd ha List.not_mem_nil) fun h => by cases h
    | finishing => exact iff_of_true (fun a ha => absurd ha List.not_mem_nil) fun h => by cases h
  refine ⟨fun h => hindices.mp h.indices, fun h => ⟨hindices.mpr h, fun p hp => ?_⟩⟩
  cases hp

theorem tame_packet (hc : p.checksum = p.calculatedChecksum) :
    Tame s (.packet p) ↔ ∃ f : Fin numFiles, p.fileNumber.toNat = f ∧ Receivable s f p ∧
      (Ends s f p → ∀ g, g ≠ f → s.AckFits g) := by
  unfold Tame
  dsimp only
  rw [if_pos hc]

theorem tame_rejected (hc : p.checksum ≠ p.calculatedChecksum) :
    Tame s (.packet p) ↔ ∀ g, s.AckFits g := by
  unfold Tame
  dsimp only
  rw [if_neg hc]

/-- **One event**: it is handled exactly when it is tame. -/
theorem handles_iff (hs : s.Ok n) (ev : Event) : s.Handles ev ↔ Tame s ev := by
  cases ev with
  | timeout => exact handles_timeout hs
  | packet p =>
    by_cases hc : p.checksum = p.calculatedChecksum
    · rw [tame_packet hc]
      constructor
      · intro h
        by_cases hf : p.fileNumber.toNat < numFiles
        · exact ⟨⟨_, hf⟩, rfl, (handles_packet hs rfl hc).mp h⟩
        · have hr : s.receive p = .error .fileNumber := by
            unfold Server.receive
            rw [if_neg (not_not.mpr hc), dif_neg hf]
          exact absurd h (not_handles_of_error hr)
      · intro ⟨f, hf, h⟩
        exact (handles_packet hs hf hc).mpr h
    · rw [tame_rejected hc]
      exact handles_leave hs (onPacket_rejected s hc)

/-! ## 4. Runs -/

/-- **Tame events keep the invariant**, for some number of packets of each file. -/
theorem Tame.ok (hs : s.Ok n) {ev : Event} (hc : Tame s ev) (hstep : traffic.step s ev t) :
    ∃ m, t.Ok m := by
  obtain ⟨-, hstep⟩ := hstep
  cases ev with
  | timeout =>
    obtain ⟨junk, acks, hto⟩ := hstep
    unfold Server.onTimeout at hto
    split at hto
    · obtain ⟨rfl, -⟩ := Prod.mk.inj hto
      exact ⟨n, hs.leave⟩
    · obtain ⟨rfl, -⟩ := Prod.mk.inj hto
      exact ⟨n, hs⟩
  | packet p =>
    obtain ⟨saved, hon⟩ := hstep
    by_cases hck : p.checksum = p.calculatedChecksum
    · obtain ⟨f, hf, hrec, -⟩ := (tame_packet hck).mp hc
      cases hrec with
      | consistent h =>
        obtain ⟨t', saved', m, hon', ht, -⟩ := consistent_outcome hs hf hck h
        obtain ⟨rfl, -⟩ := onPacket_unique hon' hon
        exact ⟨m, ht⟩
      | written he hnil =>
        have hv := hs.saved_of_nil he hnil
        obtain ⟨rfl, -⟩ := onPacket_unique (onPacket_written (hs.file f) hf hck hv) hon
        exact ⟨n, hs.leave⟩
      | duplicate hstored =>
        obtain ⟨rfl, -⟩ := onPacket_unique (onPacket_duplicate (hs.file f) hf hck hstored) hon
        exact ⟨n, hs.file, hs.inner (hs.unsaved_of_stored hstored)⟩
    · obtain ⟨rfl, -⟩ := onPacket_unique (onPacket_rejected s hck) hon
      exact ⟨n, hs.leave⟩

/-- **Index safety**: after every run of tame events, exactly the tame ones are handled. -/
theorem index_safety {evs : List Event} (h : (traffic.restrict Tame).Run evs s) (ev : Event) :
    s.Handles ev ↔ Tame s ev := by
  have hinv : ∃ n, s.Ok n := by
    refine h.invariant (I := fun s : Server => ∃ n, s.Ok n) ?_ ?_
    · intro s hnew
      obtain rfl : s = .new := hnew
      exact ⟨fun _ => 0, Server.new_ok _⟩
    · intro s ev t ⟨n, hs⟩ hstep
      exact hstep.1.ok hs hstep.2
  obtain ⟨n, hs⟩ := hinv
  exact handles_iff hs ev

end Event

/-- The packet with its checksum filled in. -/
def Packet.sealed (p : Packet) : Packet := { p with checksum := p.calculatedChecksum }

/-- The checksum does not count itself. -/
theorem sealed_checksum (p : Packet) : p.sealed.checksum = p.sealed.calculatedChecksum := rfl

/-- An empty packet with the right checksum. -/
def probe (fileNumber packetNumber totalPackets : Word) : Packet :=
  Packet.sealed
    { fileNumber, packetNumber, totalPackets, checksum := 0, length := 0,
      data := List.replicate packetSize 0, size := List.length_replicate }

theorem probe_checksum (a b c : Word) :
    (probe a b c).checksum = (probe a b c).calculatedChecksum := by
  unfold probe
  exact sealed_checksum _

/-- The first of two packets is received, and then the server waits for the other one. -/
theorem first_of_two {s : Server} {saved : List StoreFile}
    (h : Server.new.onPacket (probe 0 0 2) = .ok (s, saved)) :
    s.pc = .inner ∧ (s.storedPacket file0).length = 2 ∧ s.fileSaved file0.castSucc = false ∧
      ∀ g, g ≠ file0 → s.storedPacket g = [] := by
  have hp : Header (fun _ => 2) file0 (probe 0 0 2) := ⟨rfl, rfl, by decide⟩
  have hnew := Server.new_ok fun _ => 2
  rcases onPacket_outcome (hnew.file file0) hp (probe_checksum 0 0 2) with
    ⟨t, saved', hon, hout⟩ | ⟨hon, -, -⟩
  · rw [h] at hon
    obtain ⟨rfl, rfl⟩ := Prod.mk.inj (Except.ok.inj hon)
    have hends : ¬ Ends Server.new file0 (probe 0 0 2) := by
      intro hends
      rcases hends with ⟨he, -⟩ | ⟨-, hrest⟩
      · cases he
      · have hone := hrest 1 (by decide) (by decide)
        cases hone
    have hpc := not_not.mp (mt (hout.leaves_iff hnew hp).mp hends)
    cases hout with
    | known hv => cases hv
    | again hv hslot => cases hslot
    | kept hmiss hl hm =>
      obtain ⟨hunsaved, hexp⟩ := expanded_of_new (hnew.file file0) hp hmiss
      have hframe := (fill_frame Server.new file0 (probe 0 0 2)).1
      refine ⟨rfl, ?_, (congrFun hframe file0.castSucc).trans hunsaved, fun g hg =>
        (fill_of_ne Server.new (probe 0 0 2) hg).1⟩
      show ((Server.new.fill file0 (probe 0 0 2)).storedPacket file0).length = 2
      rw [fill_storedPacket, List.length_set, hexp.stored_length]
    | complete hmiss hl hall => exact absurd hpc (leave_not_inner _)
  · rw [h] at hon
    cases hon

/-- The first of two packets is no trouble. -/
theorem first_of_two_run : ∃ s, (traffic.restrict Tame).Run [.packet (probe 0 0 2)] s ∧
    (∃ m, s.Ok m) ∧ s.pc = .inner ∧ (s.storedPacket file0).length = 2 ∧
      s.fileSaved file0.castSucc = false ∧ ∀ g, g ≠ file0 → s.storedPacket g = [] := by
  have hnew := Server.new_ok fun _ => 2
  have hc := probe_checksum 0 0 2
  have hcons : (probe 0 0 2).Consistent .new file0 :=
    ⟨by decide, by decide, fun h => absurd rfl h⟩
  obtain ⟨s, saved, m, hon, hs, -⟩ := consistent_outcome hnew rfl hc hcons
  have hstart : (traffic.restrict Tame).Run [] .new := .start rfl
  have hstep : (traffic.restrict Tame).step .new (.packet (probe 0 0 2)) s := by
    refine ⟨?_, by decide, saved, hon⟩
    rw [tame_packet hc]
    exact ⟨file0, rfl, .consistent hcons, fun _ _ _ _ => .inl rfl⟩
  exact ⟨s, hstart.step hstep, ⟨m, hs⟩, first_of_two hon⟩

/-- After the first of two packets the second one is handled, and a time-out is not. -/
theorem index_safety_second : ∃ s, (traffic.restrict Tame).Run [.packet (probe 0 0 2)] s ∧
    s.Handles (.packet (probe 0 1 2)) ∧ ¬ s.Handles .timeout := by
  obtain ⟨s, hrun, -, hpc, hlen, hunsaved, hothers⟩ := first_of_two_run
  refine ⟨s, hrun, ?_, ?_⟩
  · rw [index_safety hrun, tame_packet (probe_checksum 0 1 2)]
    refine ⟨file0, rfl, .consistent ⟨by decide, by decide, fun _ => hlen.symm⟩, ?_⟩
    exact fun _ g hg _ => .inl (hothers g hg)
  · rw [index_safety hrun]
    intro htame
    rcases htame hpc file0 hunsaved with hnil | hle
    · rw [hnil] at hlen
      cases hlen
    · rw [hlen] at hle
      exact absurd hle (by decide)

/-- **Indices outside**: a packet of file 1000, and the ack for a file of two packets. -/
theorem index_unsafe : ¬ Server.new.Handles (.packet (probe 1000 0 1)) ∧
    ∃ s, traffic.Reachable s ∧ ¬ s.Handles .timeout := by
  have hnew := Server.new_ok fun _ => 2
  refine ⟨?_, ?_⟩
  · rw [handles_iff hnew, tame_packet (probe_checksum 1000 0 1)]
    intro ⟨f, hf, _⟩
    have hlt := f.isLt
    rw [← hf] at hlt
    exact absurd hlt (by decide)
  · obtain ⟨s, hrun, ⟨m, hs⟩, hpc, hlen, hunsaved, -⟩ := first_of_two_run
    refine ⟨s, ⟨_, hrun.of_restrict⟩, ?_⟩
    rw [handles_timeout hs]
    intro h
    rcases h hpc file0 hunsaved with hnil | hle
    · rw [hnil] at hlen
      cases hlen
    · rw [hlen] at hle
      exact absurd hle (by decide)

end InpLabs.Udp
