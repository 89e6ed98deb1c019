import BitTorrent.Dht.Answers

/-!
# How much a lookup asks

How many queries one lookup sends, and to whom.
-/

namespace BitTorrent.Dht

open List

variable {α : Type} {p : Purpose α} {l m : Looking α} {e : LookupEvent}

/-- **When a lookup asks little**: the candidates left to ask, sorted and
without neighbours of one address, are at different addresses, and the batch
that is next stays within what a lookup may send. -/
def Looking.Frugal (l : Looking α) (target : NodeId) : Prop :=
  (((l.search.sorted target).candidates.filter fun n => n.addr ∉ l.search.queried).map
      CompactNode.addr).Nodup ∧
    (l.search.queriesSent < maxLookupQueries →
      l.search.queriesSent + (l.search.sorted target).toQuery.length ≤ maxLookupQueries)

instance (l : Looking α) (target : NodeId) : Decidable (l.Frugal target) := by
  unfold Looking.Frugal
  infer_instance

theorem le_of_asks (hl : l.Frugal p.target) (h : Asks p.target l e m)
    (hle : l.search.queriesSent ≤ maxLookupQueries) : m.search.queriesSent ≤ maxLookupQueries := by
  rw [h.count]
  rcases h.may with he | hmay
  · simpa [he] using hle
  · have hlen := h.sub.length_le
    have hroom := hl.2 hmay
    rw [length_map] at hlen
    omega

theorem not_mem_of_asks (h : Asks p.target l e m) : ∀ a ∈ e.sentTo, a ∉ l.search.queried := by
  intro a ha
  obtain ⟨n, hn, rfl⟩ := mem_map.1 (h.sub.mem ha)
  exact of_decide_eq_true (mem_filter.1 (mem_of_mem_take hn)).2

section

variable [Digests] [Ed25519]

theorem step_asks (h : (looking p).step l e m) : Asks p.target l e m := by
  rcases h with ⟨-, timeUp, sendable, h⟩ | ⟨-, r, w, h⟩
  · exact (turn_cases h).2.1
  · rcases receive_cases h with ⟨t, response, source, asked, d, rfl, -, hsearch⟩ |
      ⟨-, hasks, hsearch | ⟨rfl, hsearch⟩⟩
    · exact .of_eq rfl (by rw [hsearch]; rfl) (by rw [hsearch]; rfl)
    · refine .of_eq ?_ (by rw [hsearch]) (by rw [hsearch])
      cases e with
      | asks sent => exact absurd rfl (hasks sent)
      | hears | serves | silence | ends => rfl
    · exact .of_eq rfl (by rw [hsearch]) (by rw [hsearch])

/-- **Little is asked**: at most `MAX_LOOKUP_QUERIES` queries are sent, and
no two to one address. -/
def AsksLittle (es : List LookupEvent) : Prop :=
  (es.flatMap LookupEvent.sentTo).length ≤ maxLookupQueries ∧
    (es.flatMap LookupEvent.sentTo).Nodup

theorem sends_of_run {begin : Looking α} {es : List LookupEvent}
    (hbegin : begin.search.queriesSent = 0)
    (hrun : ((looking p).restrict fun l _ _ => l.Frugal p.target).Run begin es l) :
    AsksLittle es := by
  -- what was sent is counted, and every address it went to is among those asked
  have hinv := hrun.history (I := fun es l => (es.flatMap LookupEvent.sentTo).Nodup ∧
    (∀ a ∈ es.flatMap LookupEvent.sentTo, a ∈ l.search.queried) ∧
    l.search.queriesSent = (es.flatMap LookupEvent.sentTo).length ∧
    l.search.queriesSent ≤ maxLookupQueries) ?_ ⟨.nil, by simp, by simp [hbegin], by simp [hbegin]⟩
  · obtain ⟨hnodup, -, hcount, hle⟩ := hinv
    exact ⟨hcount ▸ hle, hnodup⟩
  rintro es s e t ⟨hnodup, hmem, hcount, hle⟩ ⟨hstep, hs⟩
  have h := step_asks hstep
  simp only [flatMap_append, flatMap_singleton, length_append, forall_mem_append]
  refine ⟨nodup_append'.2 ⟨hnodup, (hs.1.sublist ((take_sublist _ _).map _)).sublist h.sub,
      fun a ha ha' => not_mem_of_asks h a ha' (hmem a ha)⟩,
    ⟨fun a ha => h.noted (Finset.mem_union_left _ (hmem a ha)),
      fun a ha => h.noted (Finset.mem_union_right _ (mem_toFinset.2 ha))⟩, ?_, le_of_asks hs h hle⟩
  rw [h.count, hcount]

end

end BitTorrent.Dht
