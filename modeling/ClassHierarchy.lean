import ClassHierarchy.Hierarchy.Construction
import ClassHierarchy.Proofs.Counts
import ClassHierarchy.Proofs.DeclarationOrder
import ClassHierarchy.Proofs.Inheritance
import ClassHierarchy.Proofs.Interfaces
import ClassHierarchy.Proofs.OpenReceivers
import ClassHierarchy.Proofs.Totality
import ClassHierarchy.Proofs.Transparency
import ClassHierarchy.Session.Basic
import ClassHierarchy.Targets.Registers
import ClassHierarchy.Proofs.NearestAncestor
import ClassHierarchy.Proofs.DispatchViews
import ClassHierarchy.Proofs.Interleaving
import ClassHierarchy.Proofs.OptionNeutrality
import ClassHierarchy.Proofs.Subtrees
import ClassHierarchy.Proofs.ListingPaths
import ClassHierarchy.Proofs.ImplementorSearch
import ClassHierarchy.Proofs.ImplementorRoots
import ClassHierarchy.Proofs.SuperCalls
import ClassHierarchy.Proofs.Remembrance
import ClassHierarchy.Proofs.Accounting
import ClassHierarchy.Proofs.Batches
import ClassHierarchy.Proofs.MissingReceivers
import ClassHierarchy.Proofs.TargetSets
import ClassHierarchy.Proofs.Balance
import ClassHierarchy.Proofs.Crews
import ClassHierarchy.Proofs.SharedWork
import ClassHierarchy.Proofs.Closure
import ClassHierarchy.Proofs.Ledger
