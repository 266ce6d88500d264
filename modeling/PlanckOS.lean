import PlanckOS.Heap.Accounting
import PlanckOS.Heap.FirstFit
import PlanckOS.Heap.Walks
import PlanckOS.Sync.SpinLock
import PlanckOS.Fat32.Addressing
import PlanckOS.Fat32.Resize
import PlanckOS.Applets.RmTree
import PlanckOS.Display.Agreement
import PlanckOS.Display.Slice
import PlanckOS.Input.Keyboard
import PlanckOS.Smp.Ipi
import PlanckOS.Smp.Boot
import PlanckOS.Fat32.Wildcards
import PlanckOS.Fat32.WorkingDir
import PlanckOS.Fat32.Label
import PlanckOS.Fat32.Walks
import PlanckOS.Fat32.Release
import PlanckOS.Fat32.Printf
import PlanckOS.Applets.LsOwn
import PlanckOS.Applets.Out
import PlanckOS.Applets.MkParents
import PlanckOS.Acpi.S5
import PlanckOS.Shell.Bounds
import PlanckOS.Shell.Redraw
import PlanckOS.Ata.Drive
import PlanckOS.Rtc.Datetime
