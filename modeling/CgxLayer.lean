import CgxLayer.Text
import CgxLayer.Dict
import CgxLayer.Runs
import CgxLayer.Acyclic
import CgxLayer.MountTable
import CgxLayer.Installer.Fstab
import CgxLayer.Installer.Menu
import CgxLayer.Installer.RootMounted
import CgxLayer.Installer.Imaged
import CgxLayer.Installer.Topology
import CgxLayer.Installer.BaseDevices
import CgxLayer.Installer.BootDevices
import CgxLayer.KernelConfig.Datastore
import CgxLayer.KernelConfig.CopyConfig
import CgxLayer.KernelConfig.TaskHash
import CgxLayer.Bytes
import CgxLayer.LttDump.Pages
import CgxLayer.LttDump.Subbuffer
import CgxLayer.LttDump.PacketChain
import CgxLayer.LttDump.RingBuffer
import CgxLayer.Ramdisk.Shell
import CgxLayer.Ramdisk.Modules
import CgxLayer.Ramdisk.Binaries
import CgxLayer.Ramdisk.ModuleClosure
import CgxLayer.Ramdisk.BinaryClosure
import CgxLayer.FileTree
import CgxLayer.Ramdisk.BuildDir
import CgxLayer.Ramdisk.Isolation
import CgxLayer.Locking
import CgxLayer.Ramdisk.Hotplug
import CgxLayer.Image.SplitPartitions
import CgxLayer.Installer.FreeSpace
import CgxLayer.Installer.LogicalVolumes
import CgxLayer.Image.UpdateFstab
import CgxLayer.Layers.LayerName
import CgxLayer.Installer.MountOrder
import CgxLayer.Installer.UnmountAll
import CgxLayer.Shell.Script
import CgxLayer.Installer.CreatedFstab
import CgxLayer.Shell.Template
import CgxLayer.Shell.Quoting
import CgxLayer.Sdk.EmitShellscript
import CgxLayer.Sdk.SourcedScript
import CgxLayer.KernelConfig.LineEdits
import CgxLayer.KernelConfig.Postconfigure
import CgxLayer.Installer.SerialConsole
import CgxLayer.LttDump.Committed
import CgxLayer.LttDump.OnlineCpus
import CgxLayer.Image.PartitionCmds
import CgxLayer.Ramdisk.Scanned
import CgxLayer.Ramdisk.ExitStatus
import CgxLayer.Ramdisk.Firmware
import CgxLayer.Package.FilePerms
import CgxLayer.Ramdisk.DeviceTable
import CgxLayer.Package.PermsLine
import CgxLayer.Package.StrippedPerms
import CgxLayer.Package.Unread
import CgxLayer.Ramdisk.DotDot
import CgxLayer.Ramdisk.DotDotSettled
import CgxLayer.Kdump.Dmesg
import CgxLayer.Kdump.Btpid
import CgxLayer.Toolchain.Populate
import CgxLayer.Installer.FindDevices
import CgxLayer.Installer.AutoVolumes
import CgxLayer.Lxc.Netmask
import CgxLayer.Lxc.GetFs
import CgxLayer.Lxc.InstallMvlinux
import CgxLayer.Lxc.RestoreFs
import CgxLayer.Lxc.Services
import CgxLayer.Ramdisk.DeviceNodes
import CgxLayer.Sysvinit.Rc
import CgxLayer.Sysvinit.Progress
import CgxLayer.Installer.AutoInstall
import CgxLayer.Peeling
import CgxLayer.Cryptdisks.Crypttab
import CgxLayer.Cryptdisks.Start
import CgxLayer.Cryptdisks.Stop
import CgxLayer.ListWalk
import CgxLayer.LttDump.Sessions
import CgxLayer.Initramfs.Cmdline
import CgxLayer.Initramfs.InitTemplate
import CgxLayer.LastOf
import CgxLayer.Installer.Console
import CgxLayer.Installer.GrubEfi
import CgxLayer.Ramdisk.Kernels
import CgxLayer.Kdump.Tasks
import CgxLayer.Cryptdisks.Keyctl
import CgxLayer.PathWalk
import CgxLayer.Ramdisk.BaseTree
