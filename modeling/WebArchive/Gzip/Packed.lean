import WebArchive.Archive.Error
import WebArchive.Gzip.Container
import WebArchive.Stream.Buffered

/-!
A compressed archive: a container in which every member holds one record. Members are passed over
until something is found at the beginning of one; those that are over are set aside in order.
Main fact: `weight_seek`, finding something uses up the container.
-/
namespace WebArchive.Gzip

structure Packed where
  container : Container
  /-- members that are over and not collected yet -/
  completed : List Member := []

namespace Packed

open Readable (weight)

def start (source : Source) : Packed := { container := .start source }

def takeCompleted (p : Packed) : List Member × Packed := (p.completed, { p with completed := [] })

/-- Sets the current member aside, once it is read to its end. -/
def settle (p : Packed) : Answer Packed Unit :=
  match p.container.finish with
  | (.error e, container) => (.error e, { p with container })
  | (.ok m, container) => (.ok (), ⟨container, p.completed ++ m.toList⟩)

theorem weight_settle_le (p : Packed) : weight p.settle.2.container ≤ weight p.container := by
  have le := Container.weight_finish_le p.container
  unfold settle
  rcases h : p.container.finish with ⟨e | m, container⟩ <;> rw [h] at le <;> exact le

variable {α : Type}

/-- A look at the data of a member; it may read on, never back. -/
structure Look (α : Type) where
  run : Buffered Container → Answer (Buffered Container) (Option α)
  weight_le : ∀ s, weight (run s).2 ≤ weight s

theorem weight_inner_le (s : Buffered Container) : weight s.inner ≤ weight s :=
  Nat.le_add_left _ _

theorem weight_look_le (look : Look α) (c : Container) :
    weight (look.run { inner := c }).2 ≤ weight c := by
  have := look.weight_le { inner := c }
  have same : weight ({ inner := c } : Buffered Container) = 0 + weight c := rfl
  omega

/-- What the look finds in the next member in which it finds something, and the data of that
member from there on; none at the end of the container. -/
def seek (look : Look α) (p : Packed) :
    Outcome ArchiveError Packed (Option (α × Buffered Container)) :=
  match _settled : p.settle with
  | (.error e, p') => (.error (.stream e), p')
  | (.ok (), p') =>
    match _next : p'.container.next with
    | (.error e, container) => (.error (.gzip e), { p' with container })
    | (.ok none, container) => (.ok none, { p' with container })
    | (.ok (some _), container) =>
      match _looked : look.run { inner := container } with
      | (.error e, s) => (.error (.stream e), { p' with container := s.inner })
      | (.ok (some found), s) => (.ok (some (found, s)), { p' with container := s.inner })
      | (.ok none, s) => seek look { p' with container := s.inner }
termination_by weight p.container
decreasing_by
  have first := weight_settle_le p
  have second := Container.weight_next _next
  have third := weight_look_le look container
  have fourth := weight_inner_le s
  rw [_settled] at first
  rw [_looked] at third
  simp only at first third ⊢
  omega

theorem weight_seek {look : Look α} {p p' : Packed} {found : α} {s : Buffered Container}
    (h : seek look p = (.ok (some (found, s)), p')) : weight s < weight p.container := by
  fun_induction seek look p with
  | case1 => simp at h
  | case2 => simp at h
  | case3 => simp at h
  | case4 => simp at h
  | case5 p next settled member container begun f stream looked =>
    simp only [Prod.mk.injEq, Except.ok.injEq, Option.some.injEq] at h
    have first := weight_settle_le p
    have second := Container.weight_next begun
    have third := weight_look_le look container
    rw [settled] at first
    rw [looked] at third
    obtain ⟨⟨_, rfl⟩, _⟩ := h
    simp only at first third
    omega
  | case6 p next settled member container begun stream looked ih =>
    have first := weight_settle_le p
    have second := Container.weight_next begun
    have third := weight_look_le look container
    have fourth := weight_inner_le stream
    have fifth := ih h
    rw [settled] at first
    rw [looked] at third
    simp only at first third fifth
    omega

end Packed
end WebArchive.Gzip
