import TriStore.Main
import TriStore.Proofs.Accounting
import TriStore.Proofs.Arena
import TriStore.Proofs.Batch
import TriStore.Proofs.Descent
import TriStore.Proofs.Documents
import TriStore.Proofs.Equivalence
import TriStore.Proofs.LinkedTable
import TriStore.Proofs.Listing
import TriStore.Proofs.Paging
import TriStore.Proofs.RedBlack.Check
import TriStore.Proofs.RedBlack.Turns
import TriStore.Proofs.Router
import TriStore.Proofs.Settings
import TriStore.Proofs.Slots
import TriStore.Proofs.Wire
import TriStore.Proofs.Workers
